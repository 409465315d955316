import Latch.Proofs.Callbacks
import Latch.Proofs.Races
import Mathlib.Data.List.Forall2

/-!
# Chains of races

A wait that is raced against a wait that is raced against a further one makes a chain. A poll goes
down the chain to the first wait whose event is set: the waits before that one are registered on the
way down and give their registrations back on the way up, innermost first. A chain that is dropped
gives back what it still has, outermost first. All this holds until tokens begin to repeat.
-/

set_option autoImplicit false

namespace Latch

variable {ω σ ν : Type}

/-! ## Drops -/

namespace Wait

/-- The token under which the wait is a member of its event's registry, if it still is one. -/
def entry? (events : Events ω) (wait : Wait) : Option Token :=
  match wait.token with
  | none => none
  | some token => if (events.get wait.event).registry.contains token then some token else none

/-- What is told if the wait is dropped. -/
def withdrawal? (events : Events ω) (wait : Wait) : Option (Occurrence ω) :=
  (wait.entry? events).map (.withdrawn wait.event)

variable {wait : Wait} {events : Events ω}

theorem trace_drop_of_free (free : (events.get wait.event).waiters.inUse = false) :
    (wait.drop events).trace = (wait.withdrawal? events).toList := by
  rw [trace_drop]
  cases holds : wait.token with
  | none => simp [withdraw, withdrawal?, entry?, holds]
  | some own =>
      rw [withdraw_of_free free holds]
      cases present : (events.get wait.event).registry.contains own <;>
        simp [withdrawal?, entry?, holds, present]

end Wait

/-- Dropping a wait ends no other wait's registration. -/
theorem Owned.entry?_drop {events : Events ω} {wait other : Wait} {others : List Wait}
    (owned : Owned events (wait :: others)) (few : events.Few) (live : other ∈ others) :
    other.entry? (wait.drop events).events = other.entry? events := by
  cases holds : other.token with
  | none => simp [Wait.entry?, holds]
  | some token =>
      have same : ((wait.drop events).events.get other.event).registry.get? token =
          (events.get other.event).registry.get? token := by
        rw [Wait.get?_drop (owned.free _)]
        split
        · next shared =>
            -- Two waits hold one token only if it has become void.
            cases flag : (events.get other.event).isSet with
            | true => rw [owned.get?_eq_none flag]
            | false =>
                have unique := owned.nodup flag (few _)
                have member : token ∈ Wait.tokensOn other.event others :=
                  Wait.mem_tokensOn.mpr ⟨other, live, rfl, holds⟩
                rw [Wait.tokensOn_cons, shared, Option.toList_some, List.singleton_append] at unique
                exact absurd member (List.nodup_cons.mp unique).1
        · rfl
      have present : ((wait.drop events).events.get other.event).registry.contains token =
          (events.get other.event).registry.contains token := congrArg Option.isSome same
      simp only [Wait.entry?, holds, present]

/-- A future that is dropped ends the registrations that its waits still have, and no others. It
tells of each of them, outermost first. -/
theorem Future.drop_spec {future : Future σ} {events : Events ω} {others : List Wait}
    (owned : Owned events (future.waits ++ others)) :
    (future.drop events).panic? = none ∧
    (events.Few →
      (future.drop events).trace = future.waits.filterMap (Wait.withdrawal? events)) ∧
    ∀ id token, ((future.drop events).events.get id).registry.get? token =
      if token ∈ Wait.tokensOn id future.waits then none
      else (events.get id).registry.get? token := by
  induction future generalizing events others with
  | plain wait =>
      refine ⟨owned.drop.1, ?_, ?_⟩
      · intro _
        rw [drop, Wait.trace_drop_of_free (owned.free _), waits, List.filterMap_cons]
        cases wait.withdrawal? events <;> rfl
      · intro id token
        rw [drop, Wait.get?_drop (owned.free _), waits, Wait.tokensOn_cons]
        simp [Wait.tokensOn]
  | race wait signal ih =>
      cases wait with
      | none => exact ih owned
      | some wait =>
          have whole : Owned events (wait :: (signal.waits ++ others)) := owned
          obtain ⟨unbroken, told, ended⟩ := ih whole.drop.2
          refine ⟨?_, ?_, ?_⟩
          · simp only [drop, whole.drop.1, unbroken, Option.or_none]
          · intro few
            have unchanged : ∀ other ∈ signal.waits,
                other.withdrawal? (wait.drop events).events = other.withdrawal? events := by
              intro other member
              rw [Wait.withdrawal?, whole.entry?_drop few (List.mem_append_left _ member),
                Wait.withdrawal?]
            have fewer : (wait.drop events).events.Few := by
              intro id
              rw [wait.issued_drop]
              exact few id
            simp only [drop, told fewer, Wait.trace_drop_of_free (whole.free _), waits,
              Option.toList_some, List.singleton_append, List.filterMap_cons]
            rw [List.filterMap_congr unchanged]
            cases wait.withdrawal? events <;> rfl
          · intro id token
            simp only [drop, ended, Wait.get?_drop (whole.free _), waits, Option.toList_some,
              List.singleton_append, Wait.tokensOn_cons, List.mem_append, Option.mem_toList]
            by_cases own : wait.tokenOn? id = some token <;>
              by_cases inner : token ∈ Wait.tokensOn id signal.waits <;> simp [own, inner]
  | ready | never | external =>
      refine ⟨rfl, fun _ => rfl, ?_⟩
      intro id token
      exact (if_neg List.not_mem_nil).symm

namespace Machine

theorem discard_unbroken (machine : Machine ω σ ν) (control : Control ω σ) {future : Future σ}
    {others : List Wait} (owned : Owned machine.events (future.waits ++ others)) :
    (machine.discard future control).control = control := by
  simp only [discard, (Future.drop_spec owned).1]

/-- The future that stood under the name is dropped without breaking off. -/
theorem store_unbroken [DecidableEq ν] (machine : Machine ω σ ν) (name : ν)
    (holding : Holding σ) (control : Control ω σ) {hand : List Wait}
    (owned : Owned machine.events (hand ++ machine.waits)) :
    (machine.store name holding control).control = control := by
  unfold store
  cases found : machine.futures.get? name with
  | none => rfl
  | some previous =>
      have split := (waits_perm_of_get? found).append_left hand
      have front := owned.perm (split.trans (List.perm_append_comm_assoc _ _ _))
      exact discard_unbroken _ control front

end Machine

/-! ## The way down -/

/-- The wait has a registration now: its own, or else a new one. -/
def Wait.Enlists (events : Events ω) (wait now : Wait) : Prop :=
  ∃ token, now = { wait with token := some token } ∧
    (wait.token = some token ∨
      wait.token = none ∧ (events.get wait.event).registry.get? token = none)

theorem Owned.enlists [Waker ω] {events enlisted : Events ω} {wait : Wait} {others : List Wait}
    {waker : ω} {token : Token} {trace : List (Occurrence ω)}
    (owned : Owned events (wait :: others)) (unset : (events.get wait.event).isSet = false)
    (polled : wait.poll waker events =
      { outcome := .ok false, wait := { wait with token := some token }, events := enlisted
        trace }) (few : enlisted.Few) :
    wait.Enlists events { wait with token := some token } ∧
      ∀ id other, Wait.tokenOn? id { wait with token := some token } ≠ some other →
        (enlisted.get id).registry.get? other = (events.get id).registry.get? other := by
  have handles : Handles events (wait :: others) _ _ _ := .poll waker wait
  rw [polled] at handles
  have bounded := few wait.event
  have fewer := handles.few few wait.event
  obtain ⟨own, enrolment, registry, enrols, kept⟩ := owned.enrols unset waker
  have taken := Wait.poll_of_unset unset (owned.free _) waker enrols
  rw [polled] at taken
  cases taken
  rw [Events.get_put_self] at bounded
  obtain ⟨-, same, -⟩ := kept bounded
  refine ⟨⟨token, rfl, ?_⟩, ?_⟩
  · cases holds : wait.token with
    | none =>
        rw [holds] at enrols
        cases enrols
        exact .inr ⟨rfl, Registry.get?_next bounded⟩
    | some old =>
        obtain ⟨again, keeps⟩ :=
          Registry.enrol_member waker (owned.member List.mem_cons_self holds unset fewer)
        rw [holds, keeps] at enrols
        cases enrols
        exact .inl rfl
  · intro id other different
    rw [Events.get_put]
    split
    · next here =>
        rw [here]
        refine same other fun equal => different ?_
        exact Wait.tokenOn?_eq_some.mpr ⟨here.symm, congrArg some equal.symm⟩
    · rfl

/-- Some waits were polled one after another, the event of none of them being set. -/
structure Enlisted (waker : ω) (events : Events ω) (before now : List Wait)
    (told : List (Occurrence ω)) (enlisted : Events ω) : Prop where
  waits : List.Forall₂ (Wait.Enlists events) before now
  told : ∀ occurrence ∈ told, ∃ event token enrolment,
    occurrence = Wait.enrolled event token waker enrolment
  flags : ∀ id, (enlisted.get id).isSet = (events.get id).isSet
  kept : ∀ id token, token ∉ Wait.tokensOn id now →
    (enlisted.get id).registry.get? token = (events.get id).registry.get? token

namespace Enlisted

variable {waker : ω} {events enlisted : Events ω} {before now : List Wait}
  {told : List (Occurrence ω)}

theorem nil : Enlisted waker events [] [] [] events :=
  ⟨.nil, nofun, fun _ => rfl, fun _ _ _ => rfl⟩

theorem not_woken (descent : Enlisted waker events before now told enlisted)
    (event? : Option EventId) (token : Token) (woken : ω) :
    .woken event? token woken ∉ told := by
  intro member
  obtain ⟨_, _, enrolment, same⟩ := descent.told _ member
  cases enrolment <;> cases same

theorem silent (descent : Enlisted waker events before now told enlisted) :
    ∀ occurrence ∈ told, occurrence.message? Occurrence.tokenText = none := by
  intro occurrence member
  obtain ⟨event, token, enrolment, rfl⟩ := descent.told occurrence member
  exact Wait.message?_enrolled event token waker enrolment

theorem cons [Waker ω] {last : Events ω} {wait : Wait} {others : List Wait} {token : Token}
    {enrolment : Enrolment} (owned : Owned events (wait :: others))
    (unset : (events.get wait.event).isSet = false)
    (polled : wait.poll waker events =
      { outcome := .ok false, wait := { wait with token := some token }, events := enlisted
        trace := [Wait.enrolled wait.event token waker enrolment] })
    (few : enlisted.Few) (rest : Enlisted waker enlisted before now told last) :
    Enlisted waker events (wait :: before) ({ wait with token := some token } :: now)
      (Wait.enrolled wait.event token waker enrolment :: told) last := by
  obtain ⟨enlists, kept⟩ := owned.enlists unset polled few
  have flags : ∀ id, (enlisted.get id).isSet = (events.get id).isSet := by
    have handles : Handles events (wait :: others) _ _ _ := .poll waker wait
    rw [polled] at handles
    exact handles.isSet
  have after := owned.poll waker
  rw [polled] at after
  have there : (enlisted.get wait.event).registry.get? token ≠ none := by
    have member : token ∈ (enlisted.get wait.event).registry.members.keys :=
      after.member List.mem_cons_self rfl ((flags _).trans unset) (few _)
    obtain ⟨stored, found⟩ := (Registry.contains_iff _ _).mp (Table.contains_iff.mpr member)
    rw [found]
    exact nofun
  refine ⟨.cons enlists (rest.waits.imp ?_), ?_, ?_, ?_⟩
  · -- A token that is new after the wait was registered was new before.
    rintro other later ⟨own, same, held | ⟨unheld, absent⟩⟩
    · exact ⟨own, same, .inl held⟩
    · refine ⟨own, same, .inr ⟨unheld, ?_⟩⟩
      rw [← kept, absent]
      intro shared
      obtain ⟨here, same⟩ := Wait.tokenOn?_eq_some.mp shared
      cases same
      exact there (here ▸ absent)
  · intro occurrence member
    rcases List.mem_cons.mp member with rfl | member
    · exact ⟨_, _, _, rfl⟩
    · exact rest.told occurrence member
  · exact fun id => (rest.flags id).trans (flags id)
  · intro id other unheld
    rw [Wait.tokensOn_cons, List.mem_append, not_or, Option.mem_toList] at unheld
    rw [rest.kept id other unheld.2, kept id other unheld.1]

theorem exists_now (waits : List.Forall₂ (Wait.Enlists events) before now) {wait : Wait}
    (member : wait ∈ before) : ∃ later ∈ now, wait.Enlists events later := by
  induction waits with
  | nil => cases member
  | cons enlists _ ih =>
      rcases List.mem_cons.mp member with rfl | member
      · exact ⟨_, List.mem_cons_self, enlists⟩
      · obtain ⟨later, inside, enlists⟩ := ih member
        exact ⟨later, List.mem_cons_of_mem _ inside, enlists⟩

theorem exists_before (waits : List.Forall₂ (Wait.Enlists events) before now) {later : Wait}
    (member : later ∈ now) : ∃ wait ∈ before, wait.Enlists events later := by
  induction waits with
  | nil => cases member
  | cons enlists _ ih =>
      rcases List.mem_cons.mp member with rfl | member
      · exact ⟨_, List.mem_cons_self, enlists⟩
      · obtain ⟨wait, inside, enlists⟩ := ih member
        exact ⟨wait, List.mem_cons_of_mem _ inside, enlists⟩

/-- Waits that had a registration still have that one. -/
theorem tokensOn_subset (waits : List.Forall₂ (Wait.Enlists events) before now) {id : EventId}
    {token : Token} (held : token ∈ Wait.tokensOn id before) : token ∈ Wait.tokensOn id now := by
  obtain ⟨wait, member, here, holds⟩ := Wait.mem_tokensOn.mp held
  obtain ⟨_, inside, own, rfl, same | ⟨unheld, -⟩⟩ := exists_now waits member
  · exact Wait.mem_tokensOn.mpr ⟨_, inside, here, same.symm.trans holds⟩
  · cases unheld.symm.trans holds

/-- What the waits have got in place of nothing is new. -/
theorem absent_of_new (waits : List.Forall₂ (Wait.Enlists events) before now) {id : EventId}
    {token : Token} (held : token ∈ Wait.tokensOn id now) (new : token ∉ Wait.tokensOn id before) :
    (events.get id).registry.get? token = none := by
  obtain ⟨_, inside, here, holds⟩ := Wait.mem_tokensOn.mp held
  obtain ⟨wait, member, own, rfl, same | ⟨-, absent⟩⟩ := exists_before waits inside
  · exact absurd (Wait.mem_tokensOn.mpr ⟨wait, member, here, same.trans holds⟩) new
  · cases holds
    exact here ▸ absent

end Enlisted

namespace Future

/-- A signal with waits raced against it, the first of them outermost. -/
def behind (waits : List Wait) (signal : Future σ) : Future σ :=
  waits.foldr (fun wait inner => race (some wait) inner) signal

/-- Future inside of races that have lost their waits. -/
def inSettled : Nat → Future σ → Future σ
  | 0, future => future
  | count + 1, future => race none (inSettled count future)

/-! ## The way up -/

variable [Waker ω]

/-- A poll that comes to unset events only registers the waits before the signal, polls the signal,
and concludes the races one by one, the innermost first. -/
theorem poll_behind {before others : List Wait} {events : Events ω}
    (owned : Owned events (before ++ others))
    (unset : ∀ wait ∈ before, (events.get wait.event).isSet = false) (waker : ω)
    (signal : Future σ) :
    ∃ now told enlisted,
      (enlisted.Few → events.Few ∧ Enlisted waker events before now told enlisted) ∧
      Owned enlisted (now ++ others) ∧
      (behind before signal).poll waker events =
        let ended := now.foldr conclude (signal.poll waker enlisted)
        { ended with trace := told ++ ended.trace } := by
  induction before generalizing events others with
  | nil => exact ⟨[], [], events, fun few => ⟨few, .nil⟩, owned, rfl⟩
  | cons wait rest ih =>
      have whole : Owned events (wait :: (rest ++ others)) := owned
      have flag := unset wait List.mem_cons_self
      obtain ⟨token, enrolment, first, polled, same⟩ :=
        poll_race_of_unset whole flag waker (behind rest signal)
      have after := whole.poll waker
      have handles : Handles events [wait] _ _ _ := .poll waker wait
      rw [polled] at after handles
      obtain ⟨now, told, enlisted, descent, left, below⟩ := ih (after.perm List.perm_middle.symm)
        fun other member =>
          (handles.isSet _).trans (unset other (List.mem_cons_of_mem _ member))
      refine ⟨{ wait with token := some token } :: now,
        Wait.enrolled wait.event token waker enrolment :: told, enlisted, fun few => ?_,
        left.perm List.perm_middle, ?_⟩
      · obtain ⟨fewer, descent⟩ := descent few
        exact ⟨handles.few fewer, .cons whole flag polled fewer descent⟩
      rw [behind, List.foldr_cons, ← behind, same, below]
      have concluded := conclude_andThen { wait with token := some token }
        { now.foldr conclude (signal.poll waker enlisted) with trace := told }
        (now.foldr conclude (signal.poll waker enlisted)) []
      simp only [Polled.andThen, List.nil_append] at concluded
      simp only [concluded]
      rfl

/-- What is told of a registered wait that is cancelled. -/
def farewell (wait : Wait) : List (Occurrence ω) :=
  (wait.token.map (.withdrawn wait.event)).toList ++ [.cancelled wait.event]

/-- Races whose signal has fired drop their waits, the innermost first. -/
structure Cancels (now : List Wait) (answered ended : Polled σ ω) : Prop where
  progress : ended.progress = .answered (if now = [] then .completed else .cancelled)
  future : ended.future = inSettled now.length answered.future
  trace : ended.trace = answered.trace ++ now.reverse.flatMap farewell
  flags : ∀ id, (ended.events.get id).isSet = (answered.events.get id).isSet
  ended : ∀ id token, (ended.events.get id).registry.get? token =
    if token ∈ Wait.tokensOn id now then none
    else (answered.events.get id).registry.get? token

omit [Waker ω] in
theorem issued_foldr_conclude (now : List Wait) (answered : Polled σ ω) (id : EventId) :
    ((now.foldr conclude answered).events.get id).registry.issued =
      (answered.events.get id).registry.issued := by
  induction now with
  | nil => rfl
  | cons wait rest ih => exact (issued_conclude wait _ id).trans ih

theorem foldr_conclude_completed {now others : List Wait} {answered : Polled σ ω}
    (completed : answered.progress = .answered .completed)
    (owned : Owned answered.events (now ++ others))
    (held : ∀ wait ∈ now, (answered.events.get wait.event).isSet = false ∧
      ∃ token, wait.token = some token)
    (few : answered.events.Few) :
    Owned (now.foldr conclude answered).events others ∧
      Cancels now answered (now.foldr conclude answered) := by
  induction now generalizing others with
  | nil =>
      exact ⟨owned, completed, rfl, (List.append_nil _).symm, fun _ => rfl,
        fun _ _ => (if_neg List.not_mem_nil).symm⟩
  | cons wait rest ih =>
      obtain ⟨flag, token, holds⟩ := held wait List.mem_cons_self
      obtain ⟨left, cancels⟩ := ih (owned.perm List.perm_middle.symm)
        fun other member => held other (List.mem_cons_of_mem _ member)
      have unset := (cancels.flags wait.event).trans flag
      have withdrawn := (left.drop_of_token holds).1
        (Nat.le_trans (Nat.le_of_eq (issued_foldr_conclude rest answered _)) (few _))
      rw [unset, if_neg Bool.false_ne_true] at withdrawn
      have handles : Handles (rest.foldr conclude answered).events [wait] _ _ [] := .drop wait
      have fires : conclude wait (rest.foldr conclude answered) =
          { progress := .answered .cancelled
            future := .race none (rest.foldr conclude answered).future
            events := (wait.drop (rest.foldr conclude answered).events).events
            trace := (rest.foldr conclude answered).trace ++
              [.withdrawn wait.event token, .cancelled wait.event] } := by
        have done : (rest.foldr conclude answered).progress = .answered .completed ∨
            (rest.foldr conclude answered).progress = .answered .cancelled := by
          rw [cancels.progress]
          split
          · exact .inl rfl
          · exact .inr rfl
        rcases done with progress | progress
        · simp only [conclude, settle, progress, left.drop.1, withdrawn]
          rfl
        · simp only [conclude, settle, progress, left.drop.1, withdrawn]
          rfl
      rw [List.foldr_cons, fires]
      refine ⟨left.drop.2, ?_, ?_, ?_, ?_, ?_⟩
      · simp
      · simp [cancels.future, inSettled]
      · simp [cancels.trace, farewell, holds]
      · exact fun id => (handles.isSet id).trans (cancels.flags id)
      · intro id other
        simp only [Wait.get?_drop (left.free _), cancels.ended, Wait.tokensOn_cons,
          List.mem_append, Option.mem_toList]
        by_cases own : wait.tokenOn? id = some other <;>
          by_cases inner : other ∈ Wait.tokensOn id rest <;> simp [own, inner]

/-! ## Polls of chains -/

/-- A wait raced against a wait that is raced against the next one, and so on; the last is plain. -/
def chain (first : Wait) : List Wait → Future σ
  | [] => plain first
  | next :: rest => race (some first) (chain next rest)

/-- A chain whose first wait has completed. A race has dropped it then, and the waits that follow
are as they were. -/
def completedChain (first : Wait) : List Wait → Future σ
  | [] => plain { first with token := none, completed := true }
  | next :: rest => race none (chain next rest)

section

omit [Waker ω]

theorem waits_chain (first : Wait) (rest : List Wait) :
    (chain first rest : Future σ).waits = first :: rest := by
  induction rest generalizing first with
  | nil => rfl
  | cons next rest ih => exact congrArg (first :: ·) (ih next)

theorem chain_eq_behind {first hit : Wait} {rest before after : List Wait}
    (split : first :: rest = before ++ hit :: after) :
    (chain first rest : Future σ) = behind before (chain hit after) := by
  induction before generalizing first rest with
  | nil =>
      cases split
      rfl
  | cons wait waits ih =>
      obtain ⟨next, others, later⟩ : ∃ next others, waits ++ hit :: after = next :: others := by
        cases waits with
        | nil => exact ⟨_, _, rfl⟩
        | cons => exact ⟨_, _, rfl⟩
      rw [List.cons_append, later] at split
      cases split
      exact congrArg (race (some wait)) (ih later.symm)

theorem messages_farewell {now : List Wait} {told : List (Occurrence ω)}
    (silent : ∀ occurrence ∈ told, occurrence.message? Occurrence.tokenText = none) :
    Occurrence.messages (told ++ now.flatMap farewell) = now.flatMap fun wait =>
      (wait.token.map fun token =>
        "wait dropped before event was set token=" ++ Occurrence.tokenText token).toList ++
          ["wait cancelled by external signal"] := by
  have none : told.filterMap (Occurrence.message? Occurrence.tokenText) = [] :=
    List.filterMap_eq_nil_iff.mpr silent
  rw [Occurrence.messages, List.filterMap_append, none, List.nil_append, List.filterMap_flatMap]
  congr 1
  funext wait
  cases holds : wait.token <;> simp [farewell, holds, Occurrence.message?]

end

theorem poll_completedChain {hit : Wait} (after : List Wait) {others : List Wait}
    {events : Events ω} (owned : Owned events (hit :: others))
    (set : (events.get hit.event).isSet = true) (waker : ω) :
    let polled := (chain hit after : Future σ).poll waker events
    polled.progress = .answered .completed ∧ polled.future = completedChain hit after ∧
      polled.trace = [] ∧ ∀ id, (polled.events.get id).isSet = (events.get id).isSet ∧
        (polled.events.get id).registry = (events.get id).registry := by
  cases after with
  | nil =>
      simp only [chain, poll, Wait.poll_of_set set]
      exact ⟨trivial, rfl, trivial, fun _ => ⟨trivial, trivial⟩⟩
  | cons next rest => exact poll_race_of_set owned set waker (chain next rest)

variable {first : Wait} {rest others : List Wait} {events : Events ω}

/-- A chain whose events are all unset is pending, and its waits are registered. -/
theorem poll_chain_pending (owned : Owned events (first :: rest ++ others))
    (unset : ∀ wait ∈ first :: rest, (events.get wait.event).isSet = false) (waker : ω)
    (few : ((chain first rest : Future σ).poll waker events).events.Few) :
    let polled := (chain first rest : Future σ).poll waker events
    polled.progress = .answered .pending ∧
      ∃ head tail, polled.future = chain head tail ∧
        Enlisted waker events (first :: rest) (head :: tail) polled.trace polled.events := by
  induction rest generalizing first events others with
  | nil =>
      have flag := unset first List.mem_cons_self
      obtain ⟨token, enrolment, enlisted, polled, -⟩ :=
        poll_race_of_unset owned flag waker (.never : Future σ)
      simp only [chain, poll, polled] at few ⊢
      exact ⟨trivial, _, [], rfl, .cons owned flag polled few .nil⟩
  | cons next rest ih =>
      have flag := unset first List.mem_cons_self
      obtain ⟨token, enrolment, enlisted, polled, same⟩ :=
        poll_race_of_unset owned flag waker (chain next rest : Future σ)
      have after := owned.poll waker
      have handles : Handles events [first] _ _ _ := .poll waker first
      rw [polled] at after handles
      have left : Owned enlisted (next :: rest ++ { first with token := some token } :: others) :=
        after.perm List.perm_middle.symm
      rw [chain, same] at few ⊢
      have last : ((chain next rest : Future σ).poll waker enlisted).events.Few :=
        fun id => issued_conclude _ _ id ▸ few id
      obtain ⟨pending, head, tail, chained, descent⟩ := ih left
        (fun other member => (handles.isSet _).trans (unset other (List.mem_cons_of_mem _ member)))
        last
      have fewer := ((chain next rest).poll_handles waker enlisted).few last
      simp only [conclude, pending, chained]
      exact ⟨trivial, _, head :: tail, rfl, .cons owned flag polled fewer descent⟩

/-- The first wait of a chain whose event is set decides the poll. -/
theorem poll_chain_decided {hit : Wait} {before after : List Wait}
    (split : first :: rest = before ++ hit :: after)
    (owned : Owned events (first :: rest ++ others))
    (unset : ∀ wait ∈ before, (events.get wait.event).isSet = false)
    (set : (events.get hit.event).isSet = true) (waker : ω)
    (few : ((chain first rest : Future σ).poll waker events).events.Few) :
    let polled := (chain first rest : Future σ).poll waker events
    polled.progress = .answered (if before = [] then .completed else .cancelled) ∧
      polled.future = inSettled before.length (completedChain hit after) ∧
      ∃ now told enlisted, Enlisted waker events before now told enlisted ∧
        polled.trace = told ++ now.reverse.flatMap farewell ∧
        (∀ id, (polled.events.get id).isSet = (events.get id).isSet) ∧
        ∀ id token, (polled.events.get id).registry.get? token =
          if token ∈ Wait.tokensOn id now then none
          else (events.get id).registry.get? token := by
  rw [split, List.append_assoc] at owned
  obtain ⟨now, told, enlisted, descent, left, same⟩ :=
    poll_behind owned unset waker (chain hit after : Future σ)
  rw [chain_eq_behind split, same] at few
  have bounded : ((chain hit after : Future σ).poll waker enlisted).events.Few :=
    fun id => issued_foldr_conclude now _ id ▸ few id
  obtain ⟨-, descent⟩ := descent (((chain hit after).poll_handles waker enlisted).few bounded)
  have flagged := (descent.flags hit.event).trans set
  obtain ⟨completed, future, silent, kept⟩ :=
    poll_completedChain (σ := σ) after (left.perm List.perm_middle) flagged waker
  have chained : Owned enlisted ((chain hit after : Future σ).waits ++ (now ++ others)) := by
    rw [waits_chain]
    exact left.perm (List.perm_append_comm_assoc _ _ _)
  have polled := chained.handled (((chain hit after).poll_handles waker enlisted).append _)
  have held : ∀ wait ∈ now,
      (((chain hit after : Future σ).poll waker enlisted).events.get wait.event).isSet = false ∧
        ∃ token, wait.token = some token := by
    intro wait member
    obtain ⟨own, inside, token, rfl, -⟩ := Enlisted.exists_before descent.waits member
    refine ⟨?_, token, rfl⟩
    rw [(kept own.event).1, descent.flags]
    exact unset own inside
  obtain ⟨-, cancels⟩ := foldr_conclude_completed completed
    (polled.perm (List.perm_append_comm_assoc _ _ _)) held bounded
  have nobody : now = [] ↔ before = [] := by
    rw [← List.length_eq_zero_iff, ← descent.waits.length_eq, List.length_eq_zero_iff]
  rw [chain_eq_behind split, same]
  refine ⟨?_, ?_, now, told, enlisted, descent, ?_, ?_, ?_⟩
  · simp only [cancels.progress, nobody]
  · simp only [cancels.future, future, descent.waits.length_eq]
  · simp only [cancels.trace, silent, List.nil_append]
  · intro id
    simp only [cancels.flags, (kept id).1, descent.flags]
  · intro id token
    simp only [cancels.ended, (kept id).2]
    split
    · rfl
    · next unheld => exact descent.kept id token unheld

end Future

namespace Machine

variable [DecidableEq ν]

/-- A poll of a chain whose events are all unset: every wait is registered for the waker then, and
no other registration changes. -/
structure ChainWaits [Waker ω] (machine : Machine ω σ ν) (name : ν) (event : EventId) (waker : ω)
    (waits : List Wait) (turn : Turn ω σ ν) : Prop where
  pending : turn.control = .done (.polled .pending (turn.machine.events.state event))
  silent : Occurrence.messages turn.trace = []
  registered : ∃ head tail, turn.machine.futures.get? name = some ⟨event, .chain head tail⟩ ∧
    List.Forall₂ (Wait.Enlists machine.events) waits (head :: tail) ∧
    (∀ wait ∈ head :: tail, wait.RegisteredFor turn.machine.events waker) ∧
    ∀ id token, token ∉ Wait.tokensOn id (head :: tail) →
      (turn.machine.events.get id).registry.get? token =
        (machine.events.get id).registry.get? token

/-- A poll of a chain of which one event is set, and none before it. The waits before it have lost
their registrations, which is told of from the innermost to the outermost one; all other
registrations and the waits after it are as they were. -/
structure ChainEnds (machine : Machine ω σ ν) (name : ν) (event : EventId) (before : List Wait)
    (hit : Wait) (after : List Wait) (turn : Turn ω σ ν) : Prop where
  answer : turn.control = .done (.polled (if before = [] then .completed else .cancelled)
    (turn.machine.events.state event))
  future : turn.machine.futures.get? name =
    some ⟨event, .inSettled before.length (.completedChain hit after)⟩
  cancels : ∃ now, List.Forall₂ (Wait.Enlists machine.events) before now ∧
    Occurrence.messages turn.trace = now.reverse.flatMap (fun wait =>
      (wait.token.map fun token =>
        "wait dropped before event was set token=" ++ Occurrence.tokenText token).toList ++
        ["wait cancelled by external signal"]) ∧
    ∀ wait ∈ now, ∀ token, wait.token = some token →
      (turn.machine.events.get wait.event).registry.get? token = none
  kept : ∀ id token, (turn.machine.events.get id).registry.get? token =
    if token ∈ Wait.tokensOn id before then none else (machine.events.get id).registry.get? token

/-- A future is dropped: the registrations that its waits still have come to an end, which is told
of from the outermost to the innermost one, and no others do. -/
structure Sheds (machine : Machine ω σ ν) (name : ν) (waits : List Wait) (turn : Turn ω σ ν) :
    Prop where
  done : turn.control = .done .nothing
  gone : turn.machine.futures.get? name = none
  told : machine.events.Few → Occurrence.messages turn.trace =
    (waits.filterMap (Wait.entry? machine.events)).map fun token =>
      "wait dropped before event was set token=" ++ Occurrence.tokenText token
  flags : ∀ id, (turn.machine.events.get id).isSet = (machine.events.get id).isSet
  ended : ∀ id token, (turn.machine.events.get id).registry.get? token =
    if token ∈ Wait.tokensOn id waits then none else (machine.events.get id).registry.get? token

section

variable [Waker ω] {machine : Machine ω σ ν} {name : ν} {own : EventId} {first : Wait}
  {rest others : List Wait} {waker : ω}

theorem few_of_perform_poll {holding : Holding σ} {choice : Nat}
    (found : machine.futures.get? name = some holding)
    (few : (machine.perform choice (.poll name waker)).machine.events.Few) :
    (holding.future.poll waker machine.events).events.Few :=
  fun id => Nat.le_trans (issued_le_pollFuture found waker id) (few id)

theorem perform_poll_of_pending_chain [LawfulWaker ω]
    (owned : Owned machine.events (first :: rest ++ others))
    (found : machine.futures.get? name = some ⟨own, .chain first rest⟩)
    (unset : ∀ wait ∈ first :: rest, (machine.events.get wait.event).isSet = false)
    (choice : Nat) (few : (machine.perform choice (.poll name waker)).machine.events.Few) :
    ChainWaits machine name own waker (first :: rest)
      (machine.perform choice (.poll name waker)) := by
  have polled := few_of_perform_poll found few
  obtain ⟨pending, head, tail, future, descent⟩ :=
    Future.poll_chain_pending owned unset waker polled
  have whole : Owned machine.events ((Future.chain first rest : Future σ).waits ++ others) := by
    rw [Future.waits_chain]
    exact owned
  have opened : Future.Progress.isOpen
      ((Future.chain first rest : Future σ).poll waker machine.events).progress = true := by
    rw [pending]
    rfl
  have registered := Future.registeredFor_of_poll whole opened polled
  rw [future, Future.waits_chain] at registered
  rw [perform_poll_of_answered found pending]
  refine ⟨rfl, ?_, head, tail, ?_, descent.waits, registered, descent.kept⟩
  · exact List.filterMap_eq_nil_iff.mpr descent.silent
  · rw [Table.get?_insert_self, future]

theorem perform_poll_of_decided_chain {before after : List Wait} {hit : Wait}
    (owned : Owned machine.events (first :: rest ++ others))
    (found : machine.futures.get? name = some ⟨own, .chain first rest⟩)
    (split : first :: rest = before ++ hit :: after)
    (unset : ∀ wait ∈ before, (machine.events.get wait.event).isSet = false)
    (set : (machine.events.get hit.event).isSet = true) (choice : Nat)
    (few : (machine.perform choice (.poll name waker)).machine.events.Few) :
    ChainEnds machine name own before hit after
      (machine.perform choice (.poll name waker)) := by
  obtain ⟨answered, future, now, told, enlisted, descent, trace, -, ended⟩ :=
    Future.poll_chain_decided split owned unset set waker (few_of_perform_poll found few)
  rw [perform_poll_of_answered found answered]
  refine ⟨rfl, ?_, ⟨now, descent.waits, ?_, ?_⟩, ?_⟩
  · rw [Table.get?_insert_self, future]
  · simp only [trace]
    exact Future.messages_farewell descent.silent
  · intro wait member token holds
    simp only [ended]
    exact if_pos (Wait.mem_tokensOn.mpr ⟨wait, member, rfl, holds⟩)
  · intro id token
    simp only [ended]
    by_cases held : token ∈ Wait.tokensOn id before
    · rw [if_pos held, if_pos (Enlisted.tokensOn_subset descent.waits held)]
    · rw [if_neg held]
      split
      · next new => exact (Enlisted.absent_of_new descent.waits new held).symm
      · rfl

theorem perform_poll_of_chain_silent
    (owned : Owned machine.events (first :: rest ++ others))
    (found : machine.futures.get? name = some ⟨own, .chain first rest⟩) (choice : Nat)
    (few : (machine.perform choice (.poll name waker)).machine.events.Few)
    (event? : Option EventId) (token : Token) (woken : ω) :
    .woken event? token woken ∉ (machine.perform choice (.poll name waker)).trace := by
  intro member
  have polled := few_of_perform_poll found few
  cases decided : (first :: rest).find? fun wait => (machine.events.get wait.event).isSet with
  | none =>
      have unset : ∀ wait ∈ first :: rest, (machine.events.get wait.event).isSet = false := by
        intro wait inside
        simpa using List.find?_eq_none.mp decided wait inside
      obtain ⟨pending, head, tail, -, descent⟩ :=
        Future.poll_chain_pending owned unset waker polled
      rw [perform_poll_of_answered found pending] at member
      exact descent.not_woken event? token woken member
  | some hit =>
      obtain ⟨set, before, after, split, unset⟩ := List.find?_eq_some_iff_append.mp decided
      obtain ⟨answered, -, now, told, enlisted, descent, trace, -⟩ :=
        Future.poll_chain_decided split owned
          (fun wait inside => by simpa using unset wait inside) set waker polled
      rw [perform_poll_of_answered found answered] at member
      simp only [trace, List.mem_append, List.mem_flatMap] at member
      rcases member with down | ⟨wait, -, up⟩
      · exact descent.not_woken event? token woken down
      · cases holds : wait.token <;> simp [Future.farewell, holds] at up

theorem perform_drop_sheds {holding : Holding σ}
    (found : machine.futures.get? name = some holding)
    (owned : Owned machine.events (holding.future.waits ++ others)) (choice : Nat) :
    Sheds machine name holding.future.waits (machine.perform choice (.drop name)) := by
  obtain ⟨unbroken, trace, ended⟩ := Future.drop_spec owned
  simp only [perform, dropFuture, found, discard, unbroken]
  refine ⟨rfl, Table.get?_erase_self .., ?_, ?_, ended⟩
  · intro few
    simp only [Occurrence.messages, trace few, List.filterMap_filterMap, List.map_filterMap]
    congr 1
    funext wait
    cases kept : wait.entry? machine.events <;> simp [Wait.withdrawal?, kept, Occurrence.message?]
  · exact (holding.future.drop_handles machine.events).isSet

end

/-- A chain that is polled is pending if none of the events is set, and all its waits are registered
then. Otherwise the first wait whose event is set decides: the chain is completed if that is its
first one, and cancelled if not; the waits before it are registered no more, and those after it are
as they were. The poll wakes nobody and sets nothing. Whatever has become of a future, dropping it
ends the registrations that its waits still have, and no others. No event may have handed out more
tokens than there are by the end of the poll, or by the time of the drop. -/
theorem chain_polled_and_dropped [Waker ω] [LawfulWaker ω] {history : List (Occurrence ω)}
    {machine : Machine ω σ ν} (run : Run history machine) {name : ν} {holding : Holding σ}
    (found : machine.futures.get? name = some holding) (choice : Nat) :
    (∀ first rest, holding.future = .chain first rest → ∀ waker : ω,
      let turn := machine.perform choice (.poll name waker)
      turn.machine.events.Few →
      ((∀ wait ∈ first :: rest, (machine.events.get wait.event).isSet = false) →
        ChainWaits machine name holding.event waker (first :: rest) turn) ∧
      (∀ before hit after, first :: rest = before ++ hit :: after →
        (∀ wait ∈ before, (machine.events.get wait.event).isSet = false) →
        (machine.events.get hit.event).isSet = true →
        ChainEnds machine name holding.event before hit after turn) ∧
      (∀ id, (turn.machine.events.get id).isSet = (machine.events.get id).isSet) ∧
      (∀ woken, turn.control ≠ .wake woken) ∧
      ∀ event? token woken, .woken event? token woken ∉ turn.trace) ∧
    Sheds machine name holding.future.waits (machine.perform choice (.drop name)) := by
  have owned := run.owned.perm (waits_perm_of_get? found)
  refine ⟨?_, perform_drop_sheds found owned choice⟩
  obtain ⟨own, future⟩ := holding
  rintro first rest rfl waker turn few
  rw [Future.waits_chain] at owned
  refine ⟨fun unset => perform_poll_of_pending_chain owned found unset choice few, ?_, ?_, ?_, ?_⟩
  · intro before hit after split unset set
    exact perform_poll_of_decided_chain owned found split unset set choice few
  · obtain ⟨worked, left, -, -, handles⟩ := (machine.pollFuture_works name waker).handles
    exact handles.isSet
  · exact machine.pollFuture_silent name waker
  · exact perform_poll_of_chain_silent owned found choice few

/-- Four waits in a chain, two of them on the first event. The first one was registered before it
was raced, the event of the last one is set. -/
def chainMoves : List (Move Pool.TaskId Nat Nat) :=
  [.perform 0 (.makeWait 0 ⟨0⟩ .owned), .perform 0 (.makeWait 1 ⟨1⟩ .borrowed),
    .perform 0 (.makeWait 2 ⟨0⟩ .owned), .perform 0 (.makeWait 3 ⟨2⟩ .borrowed),
    .perform 0 (.poll 0 ⟨4⟩), .perform 0 (.race 2 (.future 3)), .perform 0 (.race 1 (.future 2)),
    .perform 0 (.race 0 (.future 1)), .perform 0 (.setEvent ⟨2⟩)]

/-- The chain is cancelled, and its first wait's registration is gone. Had it been dropped instead,
that registration would have been all there was to tell of. -/
theorem chain_polled_and_dropped_cancelled :
    ∃ first rest,
      (follow chainMoves).2.futures.get? 0 = some ⟨⟨0⟩, .chain first rest⟩ ∧ rest.length = 3 ∧
      (((follow chainMoves).2.events.get ⟨0⟩).registry.get? ⟨0⟩).isSome = true ∧
      ((follow chainMoves).2.perform 0 (.poll 0 ⟨5⟩)).control =
        .done (.polled .cancelled ⟨false, 0⟩) ∧
      (((follow chainMoves).2.perform 0 (.poll 0 ⟨5⟩)).machine.events.get ⟨0⟩).registry.get? ⟨0⟩ =
        none ∧
      Occurrence.messages ((follow chainMoves).2.perform 0 (.drop 0)).trace =
        ["wait dropped before event was set token=WaitToken(0)"] := by
  have found : (follow chainMoves).2.futures.get? 0 = some ⟨⟨0⟩,
      .chain ⟨⟨0⟩, .owned, some ⟨0⟩, false⟩ [⟨⟨1⟩, .borrowed, none, false⟩,
        ⟨⟨0⟩, .owned, none, false⟩, ⟨⟨2⟩, .borrowed, none, false⟩]⟩ := rfl
  obtain ⟨polls, sheds⟩ := chain_polled_and_dropped (run_follow chainMoves) found 0
  have polled := (run_follow chainMoves).step (.perform 0 (.poll 0 ⟨5⟩))
  have ends := (polls _ _ rfl ⟨5⟩ (polled.few (by decide))).2.1 [_, _, _] _ [] rfl (by decide)
    (by decide)
  have told := (sheds.told ((run_follow chainMoves).few (by decide))).trans rfl
  refine ⟨_, _, found, rfl, rfl, ends.answer, ?_, told⟩
  exact (ends.kept ⟨0⟩ ⟨0⟩).trans (if_pos (by decide))

end Machine

end Latch
