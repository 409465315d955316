import Latch.Proofs.Freshness
import Latch.Proofs.Tending

/-!
# Recounts

A wait that is polled while its event is unset leaves a copy of the waker with the event. The copy
stays as long as the wakers of later polls wake the same task, and gives way to a copy of the newer
one otherwise. So the log of a wait can be recounted from the wakers of its polls, whatever is done
with other waits in between, until tokens begin to repeat.
-/

set_option autoImplicit false

namespace Latch

variable {ω σ ν : Type}

/-! ## What the trace tells of one registration -/

namespace Occurrence

/-- Whether an occurrence tells that a wait was polled, and has the given token with the event
now. -/
def enlists (event : EventId) (token : Token) : Occurrence ω → Bool
  | .registered id own _ | .refreshed id own _ _ => id = event ∧ own = token
  | .exchanged .. | .withdrawn .. | .cancelled _ | .releasingAll .. | .releasingOne _ => false
  | .woken .. | .eventSet .. => false

variable {event : EventId} {token : Token} {occurrence : Occurrence ω}

theorem enlists_of_enrols (silent : occurrence.enrols event = false) (token : Token) :
    occurrence.enlists event token = false := by
  cases occurrence with
  | registered id own waker | refreshed id own waker replaced =>
      have different : id ≠ event := of_decide_eq_false silent
      simp [enlists, different]
  | exchanged | withdrawn | cancelled | releasingAll | releasingOne | woken | eventSet => rfl

theorem enlists_enrolled {id : EventId} {own : Token} {waker : ω} {enrolment : Enrolment} :
    (Wait.enrolled id own waker enrolment).enlists event token =
      decide (id = event ∧ own = token) := by
  cases enrolment <;> rfl

/-- A wait has a token because it got it, or because it had it before. -/
theorem registers_or_refreshes (told : occurrence.enlists event token = true) :
    occurrence.registers? event = some token ∨ occurrence.refreshes event token = true := by
  cases occurrence with
  | registered id own waker =>
      obtain ⟨rfl, rfl⟩ := of_decide_eq_true told
      exact .inl (if_pos rfl)
  | refreshed id own waker replaced => exact .inr told
  | exchanged | withdrawn | cancelled | releasingAll | releasingOne | woken | eventSet => cases told

theorem enlists_of_refreshes (refreshes : occurrence.refreshes event token = true) :
    occurrence.enlists event token = true := by
  cases occurrence with
  | refreshed => exact refreshes
  | registered | exchanged | withdrawn | cancelled | releasingAll => cases refreshes
  | releasingOne | woken | eventSet => cases refreshes

end Occurrence

/-! ## Logs that are told from the polls -/

namespace Log

/-- The polls of which a log tells: with which waker, and whether the event was set. -/
def polls (log : List (Note ω)) : List (ω × Bool) :=
  log.filterMap fun
    | .begun waker set => some (waker, set)
    | .told _ | .answered _ | .broke _ => none

/-- What the trace told of the polls. -/
def told (log : List (Note ω)) : List (Occurrence ω) :=
  log.filterMap fun
    | .told occurrence => some occurrence
    | .begun .. | .answered _ | .broke _ => none

/-- The wakers that were copied in the polls. -/
def copies (log : List (Note ω)) : List ω := (told log).filterMap Occurrence.copied?

/-- The wakers of the polls that found the event unset. -/
def wakers (polls : List (ω × Bool)) : List ω :=
  polls.filterMap fun poll => if poll.2 then none else some poll.1

variable [Waker ω]

/-- What comes of a poll while the event is unset: the first waker is copied, and each later one if
it does not wake the same task as the one before. -/
def renewal (event : EventId) (token : Token) (waker : ω) : Option ω → Occurrence ω
  | none => .registered event token waker
  | some last => .refreshed event token waker (!willWake last waker)

/-- The log of a wait that is polled so. -/
def recount (event : EventId) (token : Token) : Option ω → List (ω × Bool) → List (Note ω)
  | _, [] => []
  | last?, (waker, true) :: rest =>
      .begun waker true :: .answered .completed :: recount event token last? rest
  | last?, (waker, false) :: rest =>
      .begun waker false :: .told (renewal event token waker last?) :: .answered .pending ::
        recount event token (some waker) rest

variable (event : EventId) (token : Token)

theorem recount_append (last? : Option ω) (early late : List (ω × Bool)) :
    recount event token last? (early ++ late) =
      recount event token last? early ++
        recount event token ((wakers early).getLast?.or last?) late := by
  induction early generalizing last? with
  | nil => rfl
  | cons poll rest ih =>
      obtain ⟨waker, set⟩ := poll
      cases set with
      | true =>
          have same : wakers ((waker, true) :: rest) = wakers rest := rfl
          simp only [List.cons_append, recount, ih, same]
      | false =>
          have longer : wakers ((waker, false) :: rest) = waker :: wakers rest := rfl
          have last : (wakers rest).getLast?.or (some waker) =
              ((wakers ((waker, false) :: rest)).getLast?).or last? := by
            rw [longer, List.getLast?_cons]
            cases (wakers rest).getLast? <;> rfl
          simp only [List.cons_append, recount, ih, last]

theorem copies_recount_some (last : ω) (polls : List (ω × Bool)) :
    (copies (recount event token (some last) polls)).length =
      ((last :: wakers polls).zip (wakers polls)).countP fun pair => !willWake pair.1 pair.2 := by
  induction polls generalizing last with
  | nil => rfl
  | cons poll rest ih =>
      obtain ⟨waker, set⟩ := poll
      cases set with
      | true => exact ih last
      | false =>
          have longer : wakers ((waker, false) :: rest) = waker :: wakers rest := rfl
          have first : copies (recount event token (some last) ((waker, false) :: rest)) =
              (if willWake last waker then [] else [waker]) ++
                copies (recount event token (some waker) rest) := by
            simp only [recount, renewal]
            cases willWake last waker <;> rfl
          rw [first, longer, List.zip_cons_cons, List.countP_cons, ← ih waker, List.length_append,
            Nat.add_comm]
          cases willWake last waker <;> rfl

/-- The first waker is copied, and each later one that does not wake the task of the one before. -/
theorem copies_recount [LawfulWaker ω] (polls : List (ω × Bool)) :
    (copies (recount event token none polls)).length =
      (if wakers polls = [] then 0 else 1) +
        ((wakers polls).zip (wakers polls).tail).countP fun pair => !willWake pair.2 pair.1 := by
  have either : ∀ first second : ω, willWake first second = willWake second first :=
    fun first second => Bool.eq_iff_iff.mpr ⟨LawfulWaker.symm _ _, LawfulWaker.symm _ _⟩
  simp only [fun pair : ω × ω => either pair.2 pair.1]
  induction polls with
  | nil => rfl
  | cons poll rest ih =>
      obtain ⟨waker, set⟩ := poll
      cases set with
      | true => exact ih
      | false =>
          have longer : wakers ((waker, false) :: rest) = waker :: wakers rest := rfl
          have first : copies (recount event token none ((waker, false) :: rest)) =
              waker :: copies (recount event token (some waker) rest) := rfl
          rw [first, longer, List.length_cons, copies_recount_some, if_neg nofun, List.tail_cons,
            Nat.add_comm]

end Log

/-! ## What handling other waits leaves alone -/

/-- All tokens of which the trace tells were handed out, if none repeats yet. -/
def Issued (event : EventId) (history : List (Occurrence ω)) (registry : Registry ω) : Prop :=
  registry.issued ≤ Token.limit → ∀ occurrence ∈ history, ∀ token,
    occurrence.enlists event token = true → token.number.toNat < registry.issued

theorem Issued.append {event : EventId} {history trace : List (Occurrence ω)}
    {registry : Registry ω} (issued : Issued event history registry)
    (silent : ∀ occurrence ∈ trace, occurrence.enrols event = false) :
    Issued event (history ++ trace) registry := by
  intro few occurrence member token told
  rcases List.mem_append.mp member with early | late
  · exact issued few occurrence early token told
  · rw [Occurrence.enlists_of_enrols (silent occurrence late)] at told
    cases told

variable [Waker ω]

theorem Registry.Change.issued {event : EventId} {registry after : Registry ω}
    {occurrence : Occurrence ω} (change : Change event registry occurrence after)
    (few : after.issued ≤ Token.limit) {token : Token}
    (told : occurrence.enlists event token = true) : token.number.toNat < after.issued := by
  cases change with
  | registered waker =>
      obtain ⟨-, rfl⟩ := of_decide_eq_true told
      rw [Registry.toNat_next few]
      exact Nat.lt_succ_self _
  | @kept own stored waker found =>
      obtain ⟨-, rfl⟩ := of_decide_eq_true told
      exact registry.fresh few own
        (Table.contains_iff.mp ((registry.contains_iff own).mpr ⟨stored, found⟩))
  | @replaced own waker member =>
      obtain ⟨-, rfl⟩ := of_decide_eq_true told
      rw [issued_replace] at few ⊢
      exact registry.fresh few own member
  | withdrawn => cases told

theorem Registry.Changes.issued {event : EventId} {registry after : Registry ω}
    {history trace : List (Occurrence ω)} (changes : Changes event registry trace after)
    (issued : Issued event history registry) : Issued event (history ++ trace) after := by
  induction changes generalizing history with
  | nothing =>
      rw [List.append_nil]
      exact issued
  | other apart => exact issued.append (List.forall_mem_singleton.mpr apart)
  | change step =>
      intro few occurrence member token told
      rcases List.mem_append.mp member with early | late
      · have fewer := Nat.le_trans step.issued_le few
        exact Nat.lt_of_lt_of_le (issued fewer occurrence early token told) step.issued_le
      · rw [List.mem_singleton.mp late] at told
        exact step.issued few told
  | trans _ _ head tail =>
      rw [← List.append_assoc]
      exact tail (head issued)

theorem Registry.enrol_of_get? {registry : Registry ω} {token : Token} {stored : ω}
    (found : registry.get? token = some stored) (waker : ω) :
    registry.enrol (some token) waker =
      if willWake stored waker then (token, .kept, registry)
      else (token, .replaced, registry.replace token waker) := by
  simp only [enrol, update, found]
  cases willWake stored waker <;> rfl

theorem Registry.token_of_enrol {registry after : Registry ω} {token? : Option Token}
    {token : Token} {enrolment : Enrolment} {waker : ω}
    (enrols : registry.enrol token? waker = (token, enrolment, after)) :
    token? = some token ∨ token = registry.next ∧ registry.issued < after.issued := by
  cases token? with
  | none =>
      cases enrols
      exact .inr ⟨rfl, Nat.lt_succ_self _⟩
  | some own =>
      cases found : registry.get? own with
      | none =>
          simp only [enrol, update, found] at enrols
          cases enrols
          exact .inr ⟨rfl, Nat.lt_succ_self _⟩
      | some stored =>
          rw [enrol_of_get? found] at enrols
          split at enrols
          · cases enrols
            exact .inl rfl
          · cases enrols
            exact .inl rfl

/-- A wait that is polled gets no token that another one may have had. -/
theorem Owned.poll_spares {events : Events ω} {wait : Wait} {waits others : List Wait}
    (owned : Owned events (wait :: others)) (waker : ω) {event : EventId} {token : Token}
    (absent : token ∉ Wait.tokensOn event (wait :: waits))
    (issued : token.number.toNat < (events.get event).registry.issued)
    (few : ((wait.poll waker events).events.get event).registry.issued ≤ Token.limit) :
    (∀ occurrence ∈ (wait.poll waker events).trace, occurrence.enlists event token = false) ∧
      token ∉ Wait.tokensOn event ((wait.poll waker events).wait :: waits) := by
  cases flag : (events.get wait.event).isSet with
  | true =>
      rw [Wait.poll_of_set flag]
      refine ⟨nofun, fun member => absent (Wait.tokensOn_cons_subset waits ?_ member)⟩
      intro own holds
      simp [Wait.tokenOn?] at holds
  | false =>
      obtain ⟨own, enrolment, registry, enrols, -⟩ := owned.enrols flag waker
      rw [Wait.poll_of_unset flag (owned.free _) waker enrols] at few ⊢
      by_cases here : wait.event = event
      · subst here
        have different : own ≠ token := by
          rintro rfl
          rcases Registry.token_of_enrol enrols with holds | ⟨new, grown⟩
          · rw [Owned.tokensOn_cons_self wait waits holds] at absent
            exact absent List.mem_cons_self
          · rw [Events.get_put_self] at few
            rw [new, Registry.toNat_next (Nat.lt_of_lt_of_le grown few)] at issued
            exact Nat.lt_irrefl _ issued
        constructor
        · refine List.forall_mem_singleton.mpr ?_
          rw [Occurrence.enlists_enrolled]
          exact decide_eq_false fun both => different both.2
        · rw [Owned.tokensOn_cons_self { wait with token := some own } waits rfl, List.mem_cons]
          rw [Wait.tokensOn_cons] at absent
          rintro (same | member)
          · exact different same.symm
          · exact absent (List.mem_append_right _ member)
      · constructor
        · refine List.forall_mem_singleton.mpr ?_
          rw [Occurrence.enlists_enrolled]
          exact decide_eq_false fun both => here both.1
        · rw [Owned.tokensOn_cons_of_ne wait waits (Ne.symm here)] at absent
          rw [Owned.tokensOn_cons_of_ne { wait with token := some own } waits (Ne.symm here)]
          exact absent

/-- Waits that do not hold a token that was handed out once never get it. -/
theorem Handles.spares {events next : Events ω} {waits left rest : List Wait}
    {trace : List (Occurrence ω)} (handles : Handles events waits trace next left)
    (owned : Owned events (waits ++ rest)) {event : EventId} {token : Token}
    (absent : token ∉ Wait.tokensOn event waits)
    (issued : token.number.toNat < (events.get event).registry.issued)
    (few : (next.get event).registry.issued ≤ Token.limit) :
    (∀ occurrence ∈ trace, occurrence.enlists event token = false) ∧
      token ∉ Wait.tokensOn event left := by
  induction handles with
  | nothing | create => exact ⟨nofun, absent⟩
  | reorder same =>
      exact ⟨nofun, fun member => absent ((Wait.tokensOn_perm same).mem_iff.mpr member)⟩
  | note aside =>
      refine ⟨?_, absent⟩
      exact List.forall_mem_singleton.mpr
        (Occurrence.enlists_of_enrols (Occurrence.enrols_of_isAside aside event) token)
  | @make events waits id hold =>
      have unheld : (Wait.make events id hold).1.tokenOn? event = none := by
        unfold Wait.tokenOn?
        split <;> rfl
      refine ⟨nofun, ?_⟩
      rw [Wait.tokensOn_cons, unheld]
      exact absent
  | @drop events waits wait =>
      constructor
      · intro occurrence member
        obtain ⟨own, rfl⟩ := Wait.mem_trace_of_drop member
        rfl
      · intro member
        rw [Wait.tokensOn_cons] at absent
        exact absent (List.mem_append_right _ member)
  | @poll events waits waker wait => exact Owned.poll_spares owned waker absent issued few
  | trans head tail early late =>
      obtain ⟨silent, still⟩ :=
        early owned absent issued (Nat.le_trans (tail.issued_le event) few)
      obtain ⟨quiet, last⟩ := late (owned.handled (head.append rest)) still
        (Nat.lt_of_lt_of_le issued (head.issued_le event)) few
      refine ⟨?_, last⟩
      intro occurrence member
      exact (List.mem_append.mp member).elim (silent occurrence) (quiet occurrence)

/-! ## One wait and its registration -/

/-- A wait that was not polled yet while its event was unset. -/
structure Unlisted (event : EventId) (events : Events ω) (wait? : Option Wait) (others : List Wait)
    (history : List (Occurrence ω)) (log : List (Note ω)) : Prop where
  owned : Owned events (wait?.toList ++ others)
  found : ∀ waker, (waker, true) ∈ Log.polls log → (events.get event).isSet = true
  retold : ∀ token, log = Log.recount event token none (Log.polls log)
  unpolled : Log.wakers (Log.polls log) = []
  issued : (events.get event).isSet = false → Issued event history (events.get event).registry
  holds : ∀ wait, wait? = some wait → wait.event = event ∧ wait.token = none

/-- A wait that has a registration, or had one until it was dropped or its event was set. While the
event is unset, what is stored for the wait is the last copy that was made for it. -/
structure Listed (event : EventId) (token : Token) (events : Events ω) (wait? : Option Wait)
    (others : List Wait) (history : List (Occurrence ω)) (log : List (Note ω)) : Prop where
  owned : Owned events (wait?.toList ++ others)
  found : ∀ waker, (waker, true) ∈ Log.polls log → (events.get event).isSet = true
  retold : log = Log.recount event token none (Log.polls log)
  told : history.filter (Occurrence.enlists event token) = Log.told log
  last : ∃ waker stored, (Log.wakers (Log.polls log)).getLast? = some waker ∧
    (Log.copies log).getLast? = some stored ∧ willWake stored waker = true
  holds : ∀ wait, wait? = some wait → wait.event = event ∧
    ((∀ waker, (waker, true) ∉ Log.polls log) → wait.token = some token)
  issued : (events.get event).isSet = false →
    token.number.toNat < (events.get event).registry.issued
  apart : (events.get event).isSet = false → token ∉ Wait.tokensOn event others
  entry : (events.get event).isSet = false → ∀ wait, wait? = some wait →
    (events.get event).registry.get? token = (Log.copies log).getLast?

inductive Account (event : EventId) (events : Events ω) (wait? : Option Wait) (others : List Wait)
    (history : List (Occurrence ω)) (log : List (Note ω)) : Prop
  | unlisted (account : Unlisted event events wait? others history log)
  | listed (token : Token) (account : Listed event token events wait? others history log)

section

variable {event : EventId} {token : Token} {events next : Events ω} {wait : Wait}
  {wait? after? : Option Wait} {others left : List Wait} {history trace : List (Occurrence ω)}
  {log late : List (Note ω)}

omit [Waker ω] in
theorem Log.polls_append : polls (log ++ late) = polls log ++ polls late := List.filterMap_append

omit [Waker ω] in
theorem Log.told_append : told (log ++ late) = told log ++ told late := List.filterMap_append

theorem Log.told_of_unpolled {polls : List (ω × Bool)} (unpolled : wakers polls = [])
    (last? : Option ω) : told (recount event token last? polls) = [] := by
  induction polls with
  | nil => rfl
  | cons poll rest ih =>
      obtain ⟨waker, set⟩ := poll
      cases set with
      | true => exact ih unpolled
      | false => cases unpolled

theorem Log.registered_mem_told (event : EventId) (token : Token) {polls : List (ω × Bool)}
    (polled : wakers polls ≠ []) :
    ∃ waker, .registered event token waker ∈ told (recount event token none polls) := by
  induction polls with
  | nil => exact absurd rfl polled
  | cons poll rest ih =>
      obtain ⟨waker, set⟩ := poll
      cases set with
      | true => exact ih polled
      | false => exact ⟨waker, List.mem_cons_self⟩

theorem Listed.registered (account : Listed event token events wait? others history log) :
    token ∈ registrations event history := by
  have polled : Log.wakers (Log.polls log) ≠ [] := by
    obtain ⟨waker, -, polled, -⟩ := account.last
    intro none
    rw [none] at polled
    cases polled
  obtain ⟨waker, member⟩ := Log.registered_mem_told event token polled
  rw [← account.retold, ← account.told] at member
  exact List.mem_filterMap.mpr ⟨_, (List.mem_filter.mp member).1, if_pos rfl⟩

theorem Wait.notes_of_enrols {enrolment : Enrolment} {registry : Registry ω} {waker : ω}
    (unset : (events.get wait.event).isSet = false)
    (free : (events.get wait.event).waiters.inUse = false)
    (enrols : (events.get wait.event).registry.enrol wait.token waker =
      (token, enrolment, registry)) :
    wait.notes waker events = [.begun waker false,
      .told (Wait.enrolled wait.event token waker enrolment), .answered .pending] := by
  simp only [notes, poll_of_unset unset free waker enrols, unset, answers, List.map_cons,
    List.map_nil, List.cons_append, List.nil_append]

omit [Waker ω] in
theorem filter_enlists_append
    (silent : ∀ occurrence ∈ trace, occurrence.enlists event token = false) :
    (history ++ trace).filter (Occurrence.enlists event token) =
      history.filter (Occurrence.enlists event token) := by
  have none : trace.filter (Occurrence.enlists event token) = [] := by
    refine List.filter_eq_nil_iff.mpr fun occurrence member => ?_
    rw [silent occurrence member]
    exact Bool.false_ne_true
  rw [List.filter_append, none, List.append_nil]

/-! ### Other waits are handled -/

theorem Unlisted.beside (account : Unlisted event events wait? others history log)
    (handles : Handles events others trace next left) :
    Unlisted event next wait? left (history ++ trace) log := by
  have whole : Handles events (wait?.toList ++ others) trace next (wait?.toList ++ left) :=
    (Tends.others handles).handles
  constructor
  · exact account.owned.handled whole
  · intro waker member
    exact (handles.isSet event).trans (account.found waker member)
  · exact account.retold
  · exact account.unpolled
  · intro unset
    exact (whole.changes account.owned event).issued
      (account.issued ((handles.isSet event).symm.trans unset))
  · exact account.holds

theorem Listed.token_of_unset (account : Listed event token events (some wait) others history log)
    (unset : (events.get event).isSet = false) : wait.event = event ∧ wait.token = some token := by
  obtain ⟨here, holds⟩ := account.holds wait rfl
  refine ⟨here, holds fun waker member => ?_⟩
  rw [account.found waker member] at unset
  cases unset

theorem Listed.beside (account : Listed event token events wait? others history log)
    (handles : Handles events others trace next left)
    (few : (next.get event).registry.issued ≤ Token.limit) :
    Listed event token next wait? left (history ++ trace) log := by
  have whole : Handles events (wait?.toList ++ others) trace next (wait?.toList ++ left) :=
    (Tends.others handles).handles
  have front := account.owned.perm List.perm_append_comm
  have spared : (events.get event).isSet = false →
      (∀ occurrence ∈ trace, occurrence.enlists event token = false) ∧
        token ∉ Wait.tokensOn event left := fun unset =>
    handles.spares front (account.apart unset) (account.issued unset) few
  have silent : ∀ occurrence ∈ trace, occurrence.enlists event token = false := by
    cases flag : (events.get event).isSet with
    | false => exact (spared flag).1
    | true =>
        intro occurrence member
        have unenrolled := (whole.still account.owned flag).1 occurrence member
        exact Occurrence.enlists_of_enrols unenrolled token
  have back : (next.get event).isSet = false → (events.get event).isSet = false :=
    fun unset => (handles.isSet event).symm.trans unset
  constructor
  · exact account.owned.handled whole
  · intro waker member
    exact (handles.isSet event).trans (account.found waker member)
  · exact account.retold
  · rw [filter_enlists_append silent, account.told]
  · exact account.last
  · exact account.holds
  · intro unset
    exact Nat.lt_of_lt_of_le (account.issued (back unset)) (handles.issued_le event)
  · exact fun unset => (spared (back unset)).2
  · rintro unset wait rfl
    obtain ⟨rfl, holds⟩ := account.token_of_unset (back unset)
    have entry := account.entry (back unset) wait rfl
    obtain ⟨waker, stored, -, copied, -⟩ := account.last
    rw [copied] at entry ⊢
    exact handles.keeps front (List.mem_singleton_self wait) holds entry few

/-! ### The wait is polled or dropped -/

theorem Unlisted.polls_set (account : Unlisted event events (some wait) others history log)
    (set : (events.get event).isSet = true) (waker : ω) :
    Unlisted event (wait.poll waker events).events (some (wait.poll waker events).wait) others
      (history ++ (wait.poll waker events).trace) (log ++ wait.notes waker events) := by
  obtain ⟨rfl, free⟩ := account.holds wait rfl
  have owned := account.owned.poll waker
  have polls : Log.polls (log ++ [.begun waker true, .answered .completed]) =
      Log.polls log ++ [(waker, true)] := Log.polls_append
  rw [Wait.poll_of_set set] at owned ⊢
  rw [Wait.notes_of_set set, List.append_nil]
  constructor
  · exact owned
  · exact fun _ _ => set
  · intro token
    rw [polls, Log.recount_append, ← account.retold token]
    rfl
  · rw [polls, Log.wakers, List.filterMap_append]
    exact (List.append_nil _).trans account.unpolled
  · exact account.issued
  · rintro _ ⟨⟩
    exact ⟨rfl, rfl⟩

theorem Listed.polls_set (account : Listed event token events (some wait) others history log)
    (set : (events.get event).isSet = true) (waker : ω) :
    Listed event token (wait.poll waker events).events (some (wait.poll waker events).wait) others
      (history ++ (wait.poll waker events).trace) (log ++ wait.notes waker events) := by
  obtain ⟨rfl, -⟩ := account.holds wait rfl
  have owned := account.owned.poll waker
  have polls : Log.polls (log ++ [.begun waker true, .answered .completed]) =
      Log.polls log ++ [(waker, true)] := Log.polls_append
  have wakers : Log.wakers (Log.polls log ++ [(waker, true)]) = Log.wakers (Log.polls log) := by
    rw [Log.wakers, List.filterMap_append]
    exact List.append_nil _
  have told : Log.told (log ++ [.begun waker true, .answered .completed]) = Log.told log := by
    rw [Log.told_append]
    exact List.append_nil _
  have copies : Log.copies (log ++ [.begun waker true, .answered .completed]) =
      Log.copies log := by rw [Log.copies, told, Log.copies]
  have unset : ∀ {p : Prop}, (events.get wait.event).isSet = false → p := by
    intro p unset
    rw [set] at unset
    cases unset
  rw [Wait.poll_of_set set] at owned ⊢
  rw [Wait.notes_of_set set, List.append_nil]
  constructor
  · exact owned
  · exact fun _ _ => set
  · rw [polls, Log.recount_append, ← account.retold]
    rfl
  · rw [told]
    exact account.told
  · rw [polls, wakers, copies]
    exact account.last
  · rintro _ ⟨⟩
    refine ⟨rfl, fun unpolled => absurd ?_ (unpolled waker)⟩
    rw [polls]
    exact List.mem_append_right _ (List.mem_singleton_self _)
  · exact unset
  · exact unset
  · exact unset

/-- A poll that finds the event unset is told of like the polls before, and what is stored then is
the last copy. -/
theorem listed_of_enrols (owned : Owned events (wait :: others))
    (unset : (events.get wait.event).isSet = false)
    (found : ∀ waker, (waker, true) ∈ Log.polls log → (events.get wait.event).isSet = true)
    (retold : log = Log.recount wait.event token none (Log.polls log))
    (told : history.filter (Occurrence.enlists wait.event token) = Log.told log) {waker : ω}
    {enrolment : Enrolment} {registry : Registry ω}
    (enrols : (events.get wait.event).registry.enrol wait.token waker =
      (token, enrolment, registry))
    (renews : Wait.enrolled wait.event token waker enrolment =
      Log.renewal wait.event token waker (Log.wakers (Log.polls log)).getLast?)
    {stored : ω} (entry : registry.get? token = some stored)
    (copied : (Log.copies log ++
      (Wait.enrolled wait.event token waker enrolment).copied?.toList).getLast? = some stored)
    (does : willWake stored waker = true) (few : registry.issued ≤ Token.limit) :
    Listed wait.event token (wait.poll waker events).events (some (wait.poll waker events).wait)
      others (history ++ (wait.poll waker events).trace) (log ++ wait.notes waker events) := by
  have polled := Wait.poll_of_unset unset (owned.free _) waker enrols
  have after := owned.poll waker
  obtain ⟨own, _, _, same, kept⟩ := owned.enrols unset waker
  cases same.symm.trans enrols
  obtain ⟨-, -, apart⟩ := kept few
  have member : token ∈ registry.members.keys :=
    Table.contains_iff.mp ((registry.contains_iff token).mpr ⟨stored, entry⟩)
  have unpolled : ∀ own, (own, true) ∉ Log.polls log := by
    intro own member
    rw [found own member] at unset
    cases unset
  rw [polled] at after ⊢
  rw [Wait.notes_of_enrols unset (owned.free _) enrols]
  have registered : ((events.put wait.event { events.get wait.event with
      waiters := ⟨registry, false⟩ }).get wait.event).registry = registry := by
    rw [Events.get_put, if_pos rfl]
    rfl
  generalize noted : Wait.enrolled wait.event token waker enrolment = occurrence at *
  have enlists : occurrence.enlists wait.event token = true := by
    rw [← noted, Occurrence.enlists_enrolled]
    exact decide_eq_true ⟨rfl, rfl⟩
  have polls : Log.polls (log ++ [.begun waker false, .told occurrence, .answered .pending]) =
      Log.polls log ++ [(waker, false)] := Log.polls_append
  have wakers : Log.wakers (Log.polls log ++ [(waker, false)]) =
      Log.wakers (Log.polls log) ++ [waker] := List.filterMap_append
  have tells : Log.told (log ++ [.begun waker false, .told occurrence, .answered .pending]) =
      Log.told log ++ [occurrence] := Log.told_append
  have copies : Log.copies (log ++ [.begun waker false, .told occurrence, .answered .pending]) =
      Log.copies log ++ occurrence.copied?.toList := by
    rw [Log.copies, tells, List.filterMap_append, Log.copies, List.filterMap_cons,
      List.filterMap_nil]
    cases occurrence.copied? <;> rfl
  constructor
  · exact after
  · intro own member
    rw [polls] at member
    rcases List.mem_append.mp member with early | late
    · exact absurd early (unpolled own)
    · cases List.mem_singleton.mp late
  · rw [polls, Log.recount_append, ← retold, renews, Option.or_none]
    rfl
  · rw [List.filter_append, told, tells, List.filter_cons_of_pos enlists]
    rfl
  · refine ⟨waker, stored, ?_, ?_, does⟩
    · rw [polls, wakers, List.getLast?_concat]
    · rw [copies, copied]
  · rintro _ ⟨⟩
    exact ⟨rfl, fun _ => rfl⟩
  · intro _
    rw [registered]
    exact registry.fresh few token member
  · exact fun _ => apart
  · rintro _ _ ⟨⟩
    rw [registered, copies, copied, entry]

theorem Unlisted.polls_unset [LawfulWaker ω]
    (account : Unlisted event events (some wait) others history log)
    (unset : (events.get event).isSet = false) (waker : ω)
    (few : ((wait.poll waker events).events.get event).registry.issued ≤ Token.limit) :
    Listed event (events.get event).registry.next (wait.poll waker events).events
      (some (wait.poll waker events).wait) others (history ++ (wait.poll waker events).trace)
      (log ++ wait.notes waker events) := by
  obtain ⟨rfl, free⟩ := account.holds wait rfl
  have enrols : (events.get wait.event).registry.enrol wait.token waker =
      ((events.get wait.event).registry.next, .added,
        (events.get wait.event).registry.add waker) := by rw [free]; rfl
  rw [Wait.poll_of_unset unset (account.owned.free _) waker enrols, Events.get_put_self] at few
  have room : (events.get wait.event).registry.issued < Token.limit := few
  have untold : Log.told log = [] := by
    rw [account.retold (events.get wait.event).registry.next]
    exact Log.told_of_unpolled account.unpolled none
  have unheard : history.filter
      (Occurrence.enlists wait.event (events.get wait.event).registry.next) = [] := by
    refine List.filter_eq_nil_iff.mpr fun occurrence member told => ?_
    have early := account.issued unset (Nat.le_of_lt room) occurrence member _ told
    rw [Registry.toNat_next room] at early
    exact Nat.lt_irrefl _ early
  have entry : ((events.get wait.event).registry.add waker).get?
      (events.get wait.event).registry.next = some waker := by
    rw [Registry.get?_add, if_pos rfl]
  refine listed_of_enrols account.owned unset account.found (account.retold _)
    (unheard.trans untold.symm) enrols ?_ entry ?_ (LawfulWaker.refl waker) few
  · rw [account.unpolled]
    rfl
  · rw [Log.copies, untold]
    rfl

theorem Listed.polls_unset [LawfulWaker ω]
    (account : Listed event token events (some wait) others history log)
    (unset : (events.get event).isSet = false) (waker : ω)
    (few : ((wait.poll waker events).events.get event).registry.issued ≤ Token.limit) :
    Listed event token (wait.poll waker events).events (some (wait.poll waker events).wait) others
      (history ++ (wait.poll waker events).trace) (log ++ wait.notes waker events) := by
  obtain ⟨rfl, holds⟩ := account.token_of_unset unset
  obtain ⟨last, stored, polled, copied, does⟩ := account.last
  have entry := (account.entry unset wait rfl).trans copied
  have alike : willWake stored waker = willWake last waker :=
    Bool.eq_iff_iff.mpr ⟨LawfulWaker.trans _ _ _ (LawfulWaker.symm _ _ does),
      LawfulWaker.trans _ _ _ does⟩
  have enrols := Registry.enrol_of_get? entry waker
  rw [← holds] at enrols
  cases same : willWake stored waker with
  | true =>
      rw [same, if_pos rfl] at enrols
      rw [Wait.poll_of_unset unset (account.owned.free _) waker enrols, Events.get_put_self] at few
      refine listed_of_enrols account.owned unset account.found account.retold account.told enrols
        ?_ entry ?_ same few
      · rw [polled, Log.renewal, ← alike, same]
        rfl
      · exact (congrArg List.getLast? (List.append_nil _)).trans copied
  | false =>
      rw [same, if_neg Bool.false_ne_true] at enrols
      rw [Wait.poll_of_unset unset (account.owned.free _) waker enrols, Events.get_put_self] at few
      have member : (events.get wait.event).registry.contains token = true :=
        (Registry.contains_iff _ _).mpr ⟨stored, entry⟩
      have replaced : ((events.get wait.event).registry.replace token waker).get? token =
          some waker := by
        rw [Registry.get?_replace, if_pos ⟨rfl, member⟩]
      refine listed_of_enrols account.owned unset account.found account.retold account.told enrols
        ?_ replaced ?_ (LawfulWaker.refl waker) few
      · rw [polled, Log.renewal, ← alike, same]
        rfl
      · exact List.getLast?_concat

theorem Unlisted.drops (account : Unlisted event events (some wait) others history log) :
    Unlisted event (wait.drop events).events none others (history ++ (wait.drop events).trace)
      log := by
  have dropped : Handles events [wait] (wait.drop events).trace (wait.drop events).events [] :=
    .drop wait
  constructor
  · exact account.owned.drop.2
  · intro waker member
    exact (dropped.isSet event).trans (account.found waker member)
  · exact account.retold
  · exact account.unpolled
  · intro unset
    exact (account.owned.drop_changes event).issued
      (account.issued ((dropped.isSet event).symm.trans unset))
  · exact nofun

theorem Listed.drops (account : Listed event token events (some wait) others history log) :
    Listed event token (wait.drop events).events none others
      (history ++ (wait.drop events).trace) log := by
  have dropped : Handles events [wait] (wait.drop events).trace (wait.drop events).events [] :=
    .drop wait
  have back : ((wait.drop events).events.get event).isSet = false →
      (events.get event).isSet = false := fun unset => (dropped.isSet event).symm.trans unset
  have silent : ∀ occurrence ∈ (wait.drop events).trace,
      occurrence.enlists event token = false := by
    intro occurrence member
    obtain ⟨own, rfl⟩ := Wait.mem_trace_of_drop member
    rfl
  constructor
  · exact account.owned.drop.2
  · intro waker member
    exact (dropped.isSet event).trans (account.found waker member)
  · exact account.retold
  · rw [filter_enlists_append silent, account.told]
  · exact account.last
  · exact nofun
  · intro unset
    rw [wait.issued_drop]
    exact account.issued (back unset)
  · exact fun unset => account.apart (back unset)
  · exact nofun

theorem Tends.account [LawfulWaker ω]
    (tends : Tends events wait? others late trace next after? left)
    (account : Account event events wait? others history log)
    (few : (next.get event).registry.issued ≤ Token.limit) :
    Account event next after? left (history ++ trace) (log ++ late) := by
  induction tends generalizing history log with
  | others handles =>
      rw [List.append_nil]
      cases account with
      | unlisted account => exact .unlisted (account.beside handles)
      | listed token account => exact .listed token (account.beside handles few)
  | @polls events others waker wait =>
      cases flag : (events.get event).isSet with
      | true =>
          cases account with
          | unlisted account => exact .unlisted (account.polls_set flag waker)
          | listed token account => exact .listed token (account.polls_set flag waker)
      | false =>
          cases account with
          | unlisted account => exact .listed _ (account.polls_unset flag waker few)
          | listed token account => exact .listed token (account.polls_unset flag waker few)
  | drops wait =>
      rw [List.append_nil]
      cases account with
      | unlisted account => exact .unlisted account.drops
      | listed token account => exact .listed token account.drops
  | trans _ last head tail =>
      rw [← List.append_assoc, ← List.append_assoc]
      exact tail (head account (Nat.le_trans (last.handles.issued_le event) few)) few

theorem Account.reordered
    (account : Account event events wait? others history log) (same : others.Perm left)
    (few : (events.get event).registry.issued ≤ Token.limit) :
    Account event events wait? left history log := by
  have moved : Handles events others [] events left := .reorder same
  rw [← List.append_nil history]
  cases account with
  | unlisted account => exact .unlisted (account.beside moved)
  | listed token account => exact .listed token (account.beside moved few)

end

end Latch
