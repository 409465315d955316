import Latch.Proofs.Perspective
import Mathlib.Data.List.Nodup

/-!
# What becomes of registrations

Every registration that a wait gets with an event has one fate: it stands, its wait withdrew it, its
waker was called, or it was given up because an earlier waker broke off; while the event is being
set it may also await its call. The trace of a run accounts for all of them.
-/

set_option autoImplicit false

namespace Latch

variable {ω σ ν : Type}

/-! ## What the trace tells of an event -/

namespace Occurrence

/-- The token of a new registration with the event. -/
def registers? (event : EventId) : Occurrence ω → Option Token
  | .registered id token _ => if id = event then some token else none
  | .refreshed .. | .exchanged .. | .withdrawn .. | .cancelled _ | .releasingAll .. => none
  | .releasingOne _ | .woken .. | .eventSet .. => none

/-- The token of a registration with the event that a dropped wait gave back. -/
def withdraws? (event : EventId) : Occurrence ω → Option Token
  | .withdrawn id token => if id = event then some token else none
  | .registered .. | .refreshed .. | .exchanged .. | .cancelled _ | .releasingAll .. => none
  | .releasingOne _ | .woken .. | .eventSet .. => none

/-- The waker that is stored from now on for the registration with the given token. -/
def stores? (event : EventId) (token : Token) : Occurrence ω → Option ω
  | .registered id own waker | .refreshed id own waker true =>
      if id = event ∧ own = token then some waker else none
  | .refreshed _ _ _ false | .exchanged .. | .withdrawn .. | .cancelled _ | .releasingAll .. => none
  | .releasingOne _ | .woken .. | .eventSet .. => none

/-- How many waiters of the event are about to be woken. -/
def announces? (event : EventId) : Occurrence ω → Option Nat
  | .releasingAll (some id) count => if id = event then some count else none
  | .releasingAll none _ | .registered .. | .refreshed .. | .exchanged .. | .withdrawn .. => none
  | .cancelled _ | .releasingOne _ | .woken .. | .eventSet .. => none

/-- The waiter of the event that is called. -/
def calls? (event : EventId) : Occurrence ω → Option (Token × ω)
  | .woken (some id) token waker => if id = event then some (token, waker) else none
  | .woken none _ _ | .registered .. | .refreshed .. | .exchanged .. | .withdrawn .. => none
  | .cancelled _ | .releasingAll .. | .releasingOne _ | .eventSet .. => none

section

variable {event : EventId} {occurrence : Occurrence ω}

theorem withdraws?_eq_some {token : Token} :
    occurrence.withdraws? event = some token ↔ occurrence = .withdrawn event token := by
  cases occurrence with
  | withdrawn id own => simp [withdraws?]
  | registered | refreshed | exchanged | cancelled | releasingAll => simp [withdraws?]
  | releasingOne | woken | eventSet => simp [withdraws?]

theorem unregistered_of_enrols (silent : occurrence.enrols event = false) :
    occurrence.registers? event = none ∧ occurrence.withdraws? event = none ∧
      ∀ token, occurrence.stores? event token = none := by
  cases occurrence with
  | registered id own waker =>
      have different : id ≠ event := of_decide_eq_false silent
      exact ⟨if_neg different, rfl, fun token => if_neg fun both => different both.1⟩
  | refreshed id own waker replaced =>
      have different : id ≠ event := of_decide_eq_false silent
      refine ⟨rfl, rfl, fun token => ?_⟩
      cases replaced with
      | false => rfl
      | true => exact if_neg fun both => different both.1
  | withdrawn id own =>
      have different : id ≠ event := of_decide_eq_false silent
      exact ⟨rfl, if_neg different, fun _ => rfl⟩
  | exchanged | cancelled | releasingAll | releasingOne | woken | eventSet =>
      exact ⟨rfl, rfl, fun _ => rfl⟩

theorem uncalled_of_releases (silent : occurrence.releases event = false) :
    occurrence.announces? event = none ∧ occurrence.calls? event = none := by
  cases occurrence with
  | releasingAll event? count =>
      cases event? with
      | none => exact ⟨rfl, rfl⟩
      | some id => exact ⟨if_neg (of_decide_eq_false silent), rfl⟩
  | woken event? token waker =>
      cases event? with
      | none => exact ⟨rfl, rfl⟩
      | some id => exact ⟨rfl, if_neg (of_decide_eq_false silent)⟩
  | registered | refreshed | exchanged | withdrawn | cancelled | releasingOne | eventSet =>
      exact ⟨rfl, rfl⟩

end

end Occurrence

/-- The tokens of all registrations that were made with an event, in order. -/
def registrations (event : EventId) (history : List (Occurrence ω)) : List Token :=
  history.filterMap (Occurrence.registers? event)

/-- The tokens of the registrations that dropped waits gave back. -/
def withdrawals (event : EventId) (history : List (Occurrence ω)) : List Token :=
  history.filterMap (Occurrence.withdraws? event)

/-- How many waiters were about to be woken, each time that the event's waiters were. -/
def announcements (event : EventId) (history : List (Occurrence ω)) : List Nat :=
  history.filterMap (Occurrence.announces? event)

/-- The waiters of an event that were called. -/
def calledWaiters (event : EventId) (history : List (Occurrence ω)) : List (Token × ω) :=
  history.filterMap (Occurrence.calls? event)

/-- The waker that is stored for a registration, or was when the registration ended. -/
def stored? (event : EventId) (token : Token) (history : List (Occurrence ω)) : Option ω :=
  (history.filterMap (Occurrence.stores? event token)).getLast?

theorem registrations_concat (event : EventId) (history : List (Occurrence ω))
    (occurrence : Occurrence ω) :
    registrations event (history ++ [occurrence]) =
      registrations event history ++ (occurrence.registers? event).toList := by
  rw [registrations, List.filterMap_append, List.filterMap_cons, List.filterMap_nil]
  cases occurrence.registers? event <;> rfl

theorem registrations_append (event : EventId) (history trace : List (Occurrence ω)) :
    registrations event (history ++ trace) =
      registrations event history ++ registrations event trace :=
  List.filterMap_append

theorem length_registrations_le (event : EventId) (history : List (Occurrence ω)) :
    (registrations event history).length ≤ history.length :=
  List.length_filterMap_le _ _

theorem few_of_append {event : EventId} {history trace : List (Occurrence ω)}
    (few : (registrations event (history ++ trace)).length ≤ Token.limit) :
    (registrations event history).length ≤ Token.limit := by
  rw [registrations_append, List.length_append] at few
  exact Nat.le_trans (Nat.le_add_right _ _) few

theorem withdrawals_concat (event : EventId) (history : List (Occurrence ω))
    (occurrence : Occurrence ω) :
    withdrawals event (history ++ [occurrence]) =
      withdrawals event history ++ (occurrence.withdraws? event).toList := by
  rw [withdrawals, List.filterMap_append, List.filterMap_cons, List.filterMap_nil]
  cases occurrence.withdraws? event <;> rfl

theorem mem_withdrawals {event : EventId} {history : List (Occurrence ω)} {token : Token} :
    token ∈ withdrawals event history ↔ .withdrawn event token ∈ history := by
  rw [withdrawals, List.mem_filterMap]
  constructor
  · rintro ⟨occurrence, told, withdraws⟩
    exact Occurrence.withdraws?_eq_some.mp withdraws ▸ told
  · exact fun told => ⟨_, told, Occurrence.withdraws?_eq_some.mpr rfl⟩

theorem withdrawals_append (event : EventId) (history trace : List (Occurrence ω)) :
    withdrawals event (history ++ trace) =
      withdrawals event history ++ withdrawals event trace :=
  List.filterMap_append

theorem stored?_concat (event : EventId) (token : Token) (history : List (Occurrence ω))
    (occurrence : Occurrence ω) :
    stored? event token (history ++ [occurrence]) =
      (occurrence.stores? event token).or (stored? event token history) := by
  rw [stored?, List.filterMap_append, List.filterMap_cons, List.filterMap_nil]
  cases occurrence.stores? event token with
  | none => simp [stored?]
  | some waker => simp

section

variable {event : EventId} (history : List (Occurrence ω)) {trace : List (Occurrence ω)}

theorem accounts_of_unenrolled
    (silent : ∀ occurrence ∈ trace, occurrence.enrols event = false) :
    registrations event (history ++ trace) = registrations event history ∧
      withdrawals event (history ++ trace) = withdrawals event history ∧
      ∀ token, stored? event token (history ++ trace) = stored? event token history := by
  have none := fun occurrence member =>
    Occurrence.unregistered_of_enrols (silent occurrence member)
  refine ⟨?_, ?_, fun token => ?_⟩
  · rw [registrations, List.filterMap_append,
      List.filterMap_eq_nil_iff.mpr fun occurrence member => (none occurrence member).1,
      List.append_nil, registrations]
  · rw [withdrawals, List.filterMap_append,
      List.filterMap_eq_nil_iff.mpr fun occurrence member => (none occurrence member).2.1,
      List.append_nil, withdrawals]
  · rw [stored?, List.filterMap_append,
      List.filterMap_eq_nil_iff.mpr fun occurrence member => (none occurrence member).2.2 token,
      List.append_nil, stored?]

theorem accounts_of_unreleased
    (silent : ∀ occurrence ∈ trace, occurrence.releases event = false) :
    announcements event (history ++ trace) = announcements event history ∧
      calledWaiters event (history ++ trace) = calledWaiters event history := by
  have none := fun occurrence member =>
    Occurrence.uncalled_of_releases (silent occurrence member)
  constructor
  · rw [announcements, List.filterMap_append,
      List.filterMap_eq_nil_iff.mpr fun occurrence member => (none occurrence member).1,
      List.append_nil, announcements]
  · rw [calledWaiters, List.filterMap_append,
      List.filterMap_eq_nil_iff.mpr fun occurrence member => (none occurrence member).2,
      List.append_nil, calledWaiters]

end

/-! ## The registry of an unset event -/

/-- The history of a registry: tokens were issued in turn, each registration that was not withdrawn
is a member's unless the tokens have begun to repeat, and the stored wakers are those that the trace
tells of. -/
structure Accounts (event : EventId) (history : List (Occurrence ω)) (registry : Registry ω) :
    Prop where
  issued : registrations event history = (List.range registry.issued).map Token.nth
  balanced : registry.issued ≤ Token.limit → (registrations event history).Perm
    (withdrawals event history ++ registry.members.keys)
  stored : ∀ token waker, registry.get? token = some waker →
    stored? event token history = some waker

namespace Accounts

variable {event : EventId} {history : List (Occurrence ω)} {registry after : Registry ω}

theorem empty (event : EventId) : Accounts event ([] : List (Occurrence ω)) ∅ where
  issued := rfl
  balanced _ := .refl _
  stored := nofun

theorem length_registrations (accounts : Accounts event history registry) :
    (registrations event history).length = registry.issued := by
  rw [accounts.issued, List.length_map, List.length_range]

theorem nodup (accounts : Accounts event history registry)
    (few : registry.issued ≤ Token.limit) : (registrations event history).Nodup := by
  rw [accounts.issued]
  refine List.Nodup.map_on ?_ List.nodup_range
  intro first inside second within same
  have bound := fun {count} (member : count ∈ List.range registry.issued) =>
    Nat.lt_of_lt_of_le (List.mem_range.mp member) few
  exact Token.nth_inj (bound inside) (bound within) same

theorem unenrolled (accounts : Accounts event history registry) {trace : List (Occurrence ω)}
    (silent : ∀ occurrence ∈ trace, occurrence.enrols event = false) :
    Accounts event (history ++ trace) registry := by
  obtain ⟨registrations, withdrawals, stored⟩ := accounts_of_unenrolled history silent
  constructor
  · rw [registrations]
    exact accounts.issued
  · rw [registrations, withdrawals]
    exact accounts.balanced
  · intro token waker found
    rw [stored]
    exact accounts.stored token waker found

variable [Waker ω]

theorem change (accounts : Accounts event history registry) {occurrence : Occurrence ω}
    (change : Registry.Change event registry occurrence after) :
    Accounts event (history ++ [occurrence]) after := by
  obtain ⟨issued, balanced, stored⟩ := accounts
  cases change with
  | registered waker =>
      have registers : (Occurrence.registered event registry.next waker).registers? event =
          some registry.next := if_pos rfl
      constructor
      · rw [registrations_concat, registers, registry.counted, issued, Registry.add,
          List.range_succ, List.map_append]
        rfl
      · intro few
        have before := balanced (Nat.le_of_lt few)
        rw [registrations_concat, withdrawals_concat, registers, Registry.keys_add few,
          ← List.append_assoc]
        simpa [Occurrence.withdraws?] using before.append_right [registry.next]
      · intro token own found
        rw [Registry.get?_add] at found
        rw [stored?_concat]
        split at found
        · next here =>
            cases found
            simp [Occurrence.stores?, here]
        · next there =>
            rw [Occurrence.stores?, if_neg fun both => there both.2.symm]
            exact stored token own found
  | @kept token old waker found does =>
      constructor
      · simpa [registrations_concat, Occurrence.registers?] using issued
      · simpa [registrations_concat, withdrawals_concat, Occurrence.registers?,
          Occurrence.withdraws?] using balanced
      · intro other own found
        rw [stored?_concat]
        exact stored other own found
  | @replaced token waker member =>
      have same := registry.issued_replace token waker
      constructor
      · simpa [registrations_concat, Occurrence.registers?, same] using issued
      · simpa [registrations_concat, withdrawals_concat, Occurrence.registers?,
          Occurrence.withdraws?, Registry.keys_replace, same] using balanced
      · intro other own found
        rw [Registry.get?_replace] at found
        rw [stored?_concat]
        split at found
        · next here =>
            cases found
            simp [Occurrence.stores?, here.1]
        · next there =>
            have different : token ≠ other :=
              fun same => there ⟨same.symm, Table.contains_iff.mpr member⟩
            rw [Occurrence.stores?, if_neg fun both => different both.2]
            exact stored other own found
  | @withdrawn token member =>
      have withdraws : (Occurrence.withdrawn (ω := ω) event token).withdraws? event = some token :=
        if_pos rfl
      have taken : registry.members.keys.Perm
          (token :: registry.members.keys.filter (· ≠ token)) := by
        have unique : registry.members.keys.Nodup := registry.members.keys_nodup
        have erased := List.perm_cons_erase member
        rw [unique.erase_eq_filter] at erased
        refine erased.trans (.of_eq (congrArg _ (List.filter_congr fun other _ => ?_)))
        exact Bool.eq_iff_iff.mpr (by simp)
      have same : (registry.remove token).issued = registry.issued := rfl
      constructor
      · simpa [registrations_concat, Occurrence.registers?, same] using issued
      · intro few
        rw [registrations_concat, withdrawals_concat, withdraws, Registry.keys_remove,
          List.append_assoc]
        simpa [Occurrence.registers?] using (balanced few).trans (taken.append_left _)
      · intro other own found
        rw [Registry.get?_remove] at found
        rw [stored?_concat]
        split at found
        · cases found
        · exact stored other own found

theorem changes (accounts : Accounts event history registry) {trace : List (Occurrence ω)}
    (changes : Registry.Changes event registry trace after) :
    Accounts event (history ++ trace) after := by
  induction changes generalizing history with
  | nothing =>
      rw [List.append_nil]
      exact accounts
  | other apart =>
      apply accounts.unenrolled
      intro occurrence member
      rw [List.mem_singleton.mp member]
      exact apart
  | change step => exact accounts.change step
  | trans _ _ head tail =>
      rw [← List.append_assoc]
      exact tail (head accounts)

end Accounts

/-! ## The waiters of a set event -/

/-- The history of an event that was set: its waiters at that time were `entries`, those in `called`
were called since, and the ones that are left were not. The tokens tell its registrations apart as
long as there are no more of them than tokens. -/
structure Tally (event : EventId) (entries called left : List (Token × ω))
    (history : List (Occurrence ω)) : Prop where
  split : ∃ early late, history = early ++ late ∧
    (∀ occurrence ∈ early, occurrence.releases event = false) ∧
    ∀ occurrence ∈ late, occurrence.enrols event = false
  unique : (registrations event history).length ≤ Token.limit → (registrations event history).Nodup
  balanced : (registrations event history).length ≤ Token.limit →
    (registrations event history).Perm (withdrawals event history ++ entries.map Prod.fst)
  stored : ∀ entry ∈ entries, stored? event entry.1 history = some entry.2
  announced : announcements event history = [entries.length]
  told : calledWaiters event history = called
  all : (called ++ left).Perm entries

namespace Tally

variable {event : EventId} {history trace : List (Occurrence ω)}

theorem begins {registry : Registry ω} (accounts : Accounts event history registry)
    (unreleased : ∀ occurrence ∈ history, occurrence.releases event = false) :
    Tally event registry.entries [] registry.entries
      (history ++ [.releasingAll (some event) registry.size]) := by
  have silent : ∀ occurrence ∈ [Occurrence.releasingAll (ω := ω) (some event) registry.size],
      occurrence.enrols event = false := by
    intro occurrence member
    rw [List.mem_singleton.mp member]
    rfl
  have after := accounts.unenrolled silent
  obtain ⟨unannounced, uncalled⟩ := accounts_of_unreleased [] unreleased
  have issued := after.length_registrations
  refine ⟨⟨history, _, rfl, unreleased, silent⟩, fun few => after.nodup (issued ▸ few),
    fun few => after.balanced (issued ▸ few), ?_, ?_, ?_, .refl _⟩
  · intro entry member
    exact after.stored entry.1 entry.2 (Table.get?_of_mem member)
  · have appended : announcements event
        (history ++ [.releasingAll (some event) registry.size]) =
          announcements event history ++ [registry.size] := by
      simp [announcements, Occurrence.announces?]
    rw [appended, show announcements event history = [] from unannounced]
    rfl
  · have appended : calledWaiters event
        (history ++ [.releasingAll (some event) registry.size]) = calledWaiters event history := by
      simp [calledWaiters, Occurrence.calls?]
    rw [appended]
    exact uncalled

theorem after {entries called left rest : List (Token × ω)}
    (tally : Tally event entries called left history)
    (silent : ∀ occurrence ∈ trace, occurrence.enrols event = false)
    (unannounced : announcements event trace = [])
    (order : left.Perm (calledWaiters event trace ++ rest)) :
    Tally event entries (called ++ calledWaiters event trace) rest (history ++ trace) := by
  obtain ⟨registrations, withdrawals, stored⟩ := accounts_of_unenrolled history silent
  obtain ⟨early, late, split, before, after⟩ := tally.split
  refine ⟨⟨early, late ++ trace, by rw [split, List.append_assoc], before, ?_⟩, ?_, ?_, ?_, ?_, ?_,
    ?_⟩
  · intro occurrence member
    exact (List.mem_append.mp member).elim (after occurrence) (silent occurrence)
  · rw [registrations]
    exact tally.unique
  · rw [registrations, withdrawals]
    exact tally.balanced
  · intro entry member
    rw [stored]
    exact tally.stored entry member
  · have appended : announcements event (history ++ trace) =
        announcements event history ++ announcements event trace := List.filterMap_append
    rw [appended, unannounced, List.append_nil, tally.announced]
  · have appended : calledWaiters event (history ++ trace) =
        calledWaiters event history ++ calledWaiters event trace := List.filterMap_append
    rw [appended, tally.told]
  · rw [List.append_assoc]
    exact (order.symm.append_left called).trans tally.all

theorem whole {entries called left : List (Token × ω)}
    (tally : Tally event entries called left history)
    (few : (registrations event history).length ≤ Token.limit) :
    (registrations event history).Perm
      (withdrawals event history ++ (called.map Prod.fst ++ left.map Prod.fst)) := by
  rw [← List.map_append]
  exact (tally.balanced few).trans ((tally.all.symm.map Prod.fst).append_left _)

theorem nodup {entries called left : List (Token × ω)}
    (tally : Tally event entries called left history)
    (few : (registrations event history).length ≤ Token.limit) :
    (withdrawals event history ++ (called.map Prod.fst ++ left.map Prod.fst)).Nodup :=
  (tally.whole few).nodup_iff.mp (tally.unique few)

end Tally

namespace Machine

theorem Continues.spec {event : EventId} {released : Nat} {left : List (Token × ω)}
    {told : List (Occurrence ω)} {releases : List (Nat × List (Token × ω))}
    (continues : Continues event released left [] told releases) :
    (∀ occurrence ∈ told, occurrence.enrols event = false) ∧ announcements event told = [] ∧
      ∃ rest, left.Perm (calledWaiters event told ++ rest) ∧
        (releases = [(released, rest)] ∨ releases = [] ∧ rest = []) := by
  refine ⟨continues.unenrolled, ?_⟩
  cases continues with
  | wakes entry rest all =>
      have called : calledWaiters event [.woken (some event) entry.1 entry.2] = [entry] := by
        simp [calledWaiters, Occurrence.calls?]
      exact ⟨rfl, rest, called ▸ all, .inl rfl⟩
  | ends none =>
      subst none
      exact ⟨rfl, [], .refl _, .inr ⟨rfl, rfl⟩⟩

variable [Waker ω] [DecidableEq ν]

/-! ## Runs -/

/-- A waker of an event broke off in the run, and the waiters that were left are given up. -/
inductive BrokeOff (event : EventId) (left : List (Token × ω)) :
    List (Occurrence ω) → Machine ω σ ν → Prop
  | here {history : List (Occurrence ω)} {machine : Machine ω σ ν} (run : Run history machine)
      {released : Nat} {rest : List (Call ω σ ν)}
      (calls : machine.calls = .setting event released left :: rest) (panic : Panic)
      (choice : Nat) :
      BrokeOff event left
        (history ++ (machine.move (.resume (.panicked panic) choice)).trace)
        (machine.move (.resume (.panicked panic) choice)).machine
  | later {history : List (Occurrence ω)} {machine : Machine ω σ ν}
      (broke : BrokeOff event left history machine) (next : Move ω σ ν) :
      BrokeOff event left (history ++ (machine.move next).trace) (machine.move next).machine

/-- An event that is unset after a run: nothing was told of its release, none of its waiters is
being woken, and its registry has the history that the trace tells of. -/
structure Waiting (event : EventId) (history : List (Occurrence ω)) (machine : Machine ω σ ν) :
    Prop where
  unset : (machine.events.get event).isSet = false
  unreleased : ∀ occurrence ∈ history, occurrence.releases event = false
  idle : machine.releases event = []
  accounts : Accounts event history (machine.events.get event).registry

/-- An event that is set after a run: the waiters that are left await their call, unless a waker
broke off. Waits hold no tokens with the event but those that its waiters had. -/
structure Handed (event : EventId) (entries called left : List (Token × ω))
    (history : List (Occurrence ω)) (machine : Machine ω σ ν) : Prop where
  set : (machine.events.get event).isSet = true
  tally : Tally event entries called left history
  held : (registrations event history).length ≤ Token.limit →
    Wait.tokensOn event machine.waits ⊆ entries.map Prod.fst
  stage : machine.releases event = [(entries.length, left)] ∨
    machine.releases event = [] ∧ (left = [] ∨ BrokeOff event left history machine)

section

variable {event : EventId} {history : List (Occurrence ω)} {machine : Machine ω σ ν}
  {entries called left : List (Token × ω)}

theorem Handed.step (handed : Handed event entries called left history machine)
    (run : Run history machine) (next : Move ω σ ν) :
    ∃ called left, Handed event entries called left (history ++ (machine.move next).trace)
      (machine.move next).machine := by
  cases move_sees run.owned event next with
  | aside flag changes still quiet same =>
      obtain ⟨silent, tokens⟩ := still handed.set
      obtain ⟨unannounced, uncalled⟩ := accounts_of_unreleased [] quiet
      have uncalled : calledWaiters event (machine.move next).trace = [] := uncalled
      have made := (accounts_of_unenrolled history silent).1
      refine ⟨_, left, flag.trans handed.set, handed.tally.after silent unannounced ?_,
        fun few => List.Subset.trans tokens (handed.held (made ▸ few)), ?_⟩
      · rw [uncalled]
        exact .refl _
      · rw [same]
        exact handed.stage.imp_right fun ⟨finished, ended⟩ =>
          ⟨finished, ended.imp_right fun broke => broke.later next⟩
  | begins unset =>
      rw [handed.set] at unset
      cases unset
  | goesOn running events waits continues =>
      rcases handed.stage with runs | ⟨finished, -⟩
      · cases running.symm.trans runs
        obtain ⟨silent, unannounced, rest, order, stage⟩ := continues.spec
        refine ⟨_, rest, ?_, handed.tally.after silent unannounced order, ?_, ?_⟩
        · rw [events]
          exact handed.set
        · intro few
          rw [(accounts_of_unenrolled history silent).1] at few
          exact List.Subset.trans (Wait.tokensOn_perm waits).symm.subset (handed.held few)
        · exact stage.imp_right fun ⟨finished, ended⟩ => ⟨finished, .inl ended⟩
      · cases running.symm.trans finished
  | breaks calls panics events waits trace ended =>
      have running := releases_of_calls calls event
      rw [Call.release?, if_pos rfl] at running
      rcases handed.stage with runs | ⟨finished, -⟩
      · injection running.symm.trans runs with head tail
        cases head
        -- The accounts stay as they are; only who is left is given up from now on.
        refine ⟨called, left, ?_, ?_, ?_, .inr ⟨ended.trans tail, .inr ?_⟩⟩
        · rw [events]
          exact handed.set
        · rw [trace, List.append_nil]
          exact handed.tally
        · intro few
          rw [trace, List.append_nil] at few
          exact List.Subset.trans (Wait.tokensOn_perm waits).symm.subset (handed.held few)
        · subst panics
          exact .here run calls _ _
      · cases running.symm.trans finished

theorem Waiting.step (waiting : Waiting event history machine)
    (owned : Owned machine.events machine.waits) (next : Move ω σ ν) :
    Waiting event (history ++ (machine.move next).trace) (machine.move next).machine ∨
      ∃ entries called left, Handed event entries called left
        (history ++ (machine.move next).trace) (machine.move next).machine := by
  cases move_sees owned event next with
  | aside flag changes still quiet same =>
      refine .inl ⟨flag.trans waiting.unset, ?_, same.trans waiting.idle,
        waiting.accounts.changes changes⟩
      intro occurrence member
      exact (List.mem_append.mp member).elim (waiting.unreleased occurrence) (quiet occurrence)
  | begins unset set waits trace continues =>
      rw [waiting.idle] at continues
      obtain ⟨silent, unannounced, rest, order, stage⟩ := continues.spec
      have begun := Tally.begins waiting.accounts waiting.unreleased
      have tally := begun.after silent unannounced order
      rw [List.append_assoc, List.singleton_append, ← trace] at tally
      refine .inr ⟨_, _, rest, set, tally, ?_, ?_⟩
      · intro few
        have unenrolled : ∀ occurrence ∈ (machine.move next).trace,
            occurrence.enrols event = false := by
          intro occurrence member
          rw [trace] at member
          rcases List.mem_cons.mp member with rfl | member
          · rfl
          · exact silent occurrence member
        rw [(accounts_of_unenrolled history unenrolled).1,
          waiting.accounts.length_registrations] at few
        rw [waits]
        exact (owned.held event unset few).symm.subset
      · exact stage.imp_right fun ⟨finished, ended⟩ => ⟨finished, .inl ended⟩
  | goesOn running => cases running.symm.trans waiting.idle
  | breaks calls =>
      have running := releases_of_calls calls event
      rw [Call.release?, if_pos rfl] at running
      cases running.symm.trans waiting.idle

theorem Run.accounted (run : Run history machine) (event : EventId) :
    Waiting event history machine ∨
      ∃ entries called left, Handed event entries called left history machine := by
  induction run with
  | start => exact .inl ⟨rfl, nofun, rfl, .empty event⟩
  | step run next ih =>
      rcases ih with waiting | ⟨entries, called, left, handed⟩
      · exact waiting.step run.owned next
      · obtain ⟨called, left, handed⟩ := handed.step run next
        exact .inr ⟨entries, called, left, handed⟩

/-- No token is given back twice, or while it is a member's. -/
theorem Run.withdrawn_nodup (run : Run history machine) (event : EventId)
    (few : (registrations event history).length ≤ Token.limit) :
    (withdrawals event history ++ (machine.events.get event).registry.members.keys).Nodup := by
  rcases run.accounted event with waiting | ⟨entries, called, left, handed⟩
  · rw [waiting.accounts.length_registrations] at few
    exact (waiting.accounts.balanced few).nodup_iff.mp (waiting.accounts.nodup few)
  · rw [run.owned.released event handed.set, List.append_nil]
    exact (List.nodup_append.mp (handed.tally.nodup few)).1

/-- An unset event has handed out a token for each of its registrations. -/
theorem Run.length_registrations (run : Run history machine) {event : EventId}
    (unset : (machine.events.get event).isSet = false) :
    (registrations event history).length = (machine.events.get event).registry.issued := by
  rcases run.accounted event with waiting | ⟨entries, called, left, handed⟩
  · exact waiting.accounts.length_registrations
  · rw [handed.set] at unset
    cases unset

/-- The new registry of a set event stays unused, so an event has handed out as many tokens as it
has made registrations, or none. -/
theorem Run.issued_le (run : Run history machine) (event : EventId) :
    (machine.events.get event).registry.issued ≤ (registrations event history).length := by
  have unused : Lasting fun (events : Events ω) waits => Owned events waits ∧
      ((events.get event).isSet = true → (events.get event).registry.issued = 0) := by
    constructor
    · intro events next waits left trace handles kept
      refine ⟨kept.1.handled handles, fun set => ?_⟩
      have before := (handles.isSet event).symm.trans set
      rw [(handles.changes kept.1 event).unchanged (handles.still kept.1 before).1]
      exact kept.2 before
    · intro events waits id kept
      refine ⟨kept.1.tripped id, fun set => ?_⟩
      rw [Events.get_put] at set ⊢
      split
      · rfl
      · next there => exact kept.2 (by rwa [if_neg there] at set)
  rcases run.accounted event with waiting | ⟨entries, called, left, handed⟩
  · exact Nat.le_of_eq waiting.accounts.length_registrations.symm
  · have kept : Owned machine.events machine.waits ∧
        ((machine.events.get event).isSet = true →
          (machine.events.get event).registry.issued = 0) := by
      clear handed
      induction run with
      | start => exact ⟨.empty, nofun⟩
      | step run next ih => exact move_keeps unused run.owned ih next
    rw [kept.2 handed.set]
    exact Nat.zero_le _

theorem Run.issued_few (run : Run history machine) {event : EventId}
    (few : (registrations event history).length ≤ Token.limit) :
    (machine.events.get event).registry.issued ≤ Token.limit :=
  Nat.le_trans (run.issued_le event) few

/-- A run in which little happens has not begun to repeat tokens. -/
theorem Run.few (run : Run history machine) (short : history.length ≤ Token.limit) :
    machine.events.Few :=
  fun event => run.issued_few (Nat.le_trans (length_registrations_le event history) short)

end

end Machine

end Latch
