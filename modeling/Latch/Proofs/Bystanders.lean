import Latch.Proofs.Counterparts

/-!
# Bystanders of a dropped wait

Two runs make the same calls, except that one of them also makes a wait, polls it, and drops it
again before its event is set. Nobody else can tell the two apart: all answers are the same, and so
are the waiters that are woken, the messages but for the numbers of tokens, and the events but for
the wait itself while it is registered. The tokens that one run hands out are those of the other
with one left out, so there must not be more registrations than tokens.
-/

set_option autoImplicit false

namespace Latch

variable {ω σ ν : Type}

/-! ## A wait that only one machine has -/

namespace Machine

variable [DecidableEq ν] {gap later : Gap} {seen wider : ν → Prop}
  {machine after other : Machine ω σ ν}

/-- What stands under names that cannot be seen makes no difference. -/
theorem Alike.aside (alike : machine.Alike gap seen other) (calls : after.calls = machine.calls)
    (events : after.events.Alike later other.events)
    (same : ∀ own, seen own → after.futures.get? own = machine.futures.get? own)
    (moved : ∀ own holding, seen own → machine.futures.get? own = some holding →
      holding.renumber later = holding.renumber gap ∧
        ∀ wait ∈ holding.future.waits, later.Clear wait) :
    after.Alike later seen other := by
  refine ⟨calls.trans alike.idle, alike.otherIdle, events, ?_, ?_⟩
  · intro own visible
    rw [alike.futures own visible, same own visible]
    cases found : machine.futures.get? own with
    | none => rfl
    | some holding => exact congrArg some (moved own holding visible found).1.symm
  · intro own holding visible found
    rw [same own visible] at found
    exact (moved own holding visible found).2

theorem Alike.widen (alike : machine.Alike gap seen other)
    (known : ∀ own, wider own → seen own ∨
      machine.futures.get? own = none ∧ other.futures.get? own = none) :
    machine.Alike gap wider other := by
  refine ⟨alike.idle, alike.otherIdle, alike.events, ?_, ?_⟩
  · intro own visible
    rcases known own visible with before | ⟨none, otherNone⟩
    · exact alike.futures own before
    · rw [none, otherNone]
      rfl
  · intro own holding visible found
    rcases known own visible with before | ⟨none, -⟩
    · exact alike.clear own holding before found
    · rw [none] at found
      cases found

theorem makeWait_of_unused {name : ν} (unused : machine.futures.get? name = none)
    (event : EventId) (hold : Hold) :
    machine.makeWait name event hold =
      { machine :=
          { machine with
            events := (Wait.make machine.events event hold).2
            futures := machine.futures.insert name ⟨event, .plain { event, hold }⟩ }
        control := .done .nothing } := by
  simp only [makeWait, store, unused]
  rfl

theorem dropFuture_of_plain {name : ν} {event : EventId} {wait : Wait}
    (found : machine.futures.get? name = some ⟨event, .plain wait⟩) :
    (machine.dropFuture name).machine =
        { machine with
          events := (wait.drop machine.events).events
          futures := machine.futures.erase name } ∧
      (machine.dropFuture name).trace = (wait.drop machine.events).trace := by
  simp only [dropFuture, found, discard, Future.drop, and_self]

variable [Waker ω]

theorem pollFuture_of_plain {name : ν} {event : EventId} {wait : Wait}
    (found : machine.futures.get? name = some ⟨event, .plain wait⟩) {waker : ω}
    (pending : (wait.poll waker machine.events).outcome = .ok false) :
    (machine.pollFuture name waker).machine =
        { machine with
          events := (wait.poll waker machine.events).events
          futures := (machine.futures.erase name).insert name
            ⟨event, .plain (wait.poll waker machine.events).wait⟩ } ∧
      (machine.pollFuture name waker).trace = (wait.poll waker machine.events).trace := by
  have gone : (machine.futures.erase name).get? name = none := Table.get?_erase_self _ _
  simp only [pollFuture, found, Future.poll, pending, afterPoll, store, gone, List.append_nil,
    and_self]

/-! Tokens that have been given back, and those that waits hold. -/

variable {history : List (Occurrence ω)}

theorem Run.withdrawn_lt (run : Run history machine) {event : EventId}
    (unset : (machine.events.get event).isSet = false)
    (few : (machine.events.get event).registry.issued ≤ Token.limit) {token : Token}
    (withdrawn : token ∈ withdrawals event history) :
    token.number.toNat < (machine.events.get event).registry.issued := by
  rcases run.accounted event with waiting | ⟨entries, called, left, handed⟩
  · have balanced := waiting.accounts.balanced few
    have registered := balanced.symm.subset (List.mem_append_left _ withdrawn)
    rw [waiting.accounts.issued] at registered
    obtain ⟨count, early, rfl⟩ := List.mem_map.mp registered
    have before := List.mem_range.mp early
    rwa [Token.toNat_nth (Nat.lt_of_lt_of_le before few)]
  · rw [handed.set] at unset
    cases unset

theorem Run.token_mem (run : Run history machine) {event : EventId}
    (unset : (machine.events.get event).isSet = false)
    (few : (machine.events.get event).registry.issued ≤ Token.limit) {name : ν}
    {holding : Holding σ} (found : machine.futures.get? name = some holding) {wait : Wait}
    (member : wait ∈ holding.future.waits) (here : wait.event = event) {token : Token}
    (holds : wait.token = some token) :
    token ∈ (machine.events.get event).registry.members.keys := by
  subst here
  exact run.owned.member (mem_apart_of_get? List.not_mem_nil found member) holds unset few

omit [Waker ω] in
theorem skip_next {registry : Registry ω} (few : registry.issued < Token.limit) {token : Token}
    (early : token.number.toNat < registry.issued) : token.skip (some registry.next) = token := by
  apply Token.skip_of_le
  rw [UInt64.le_iff_toNat_le, Registry.toNat_next few]
  exact Nat.le_of_lt early

/-- Nobody holds the next token yet, and the numbers of all tokens come before it. -/
theorem Run.beside_next (run : Run history machine) {event : EventId}
    (unset : (machine.events.get event).isSet = false)
    (few : (machine.events.get event).registry.issued < Token.limit) {name : ν}
    {holding : Holding σ} (found : machine.futures.get? name = some holding) :
    holding.renumber ⟨event, some (machine.events.get event).registry.next⟩ =
        holding.renumber ⟨event, none⟩ ∧
      ∀ wait ∈ holding.future.waits,
        Gap.Clear ⟨event, some (machine.events.get event).registry.next⟩ wait := by
  have early : ∀ wait ∈ holding.future.waits, wait.event = event → ∀ token,
      wait.token = some token →
        token.number.toNat < (machine.events.get event).registry.issued := by
    intro wait member here token holds
    have fewer := Nat.le_of_lt few
    exact Registry.fresh _ fewer token (run.token_mem unset fewer found member here holds)
  constructor
  · have first : holding.future.renumber
        ⟨event, some (machine.events.get event).registry.next⟩ = holding.future := by
      apply Future.renumber_eq
      intro wait member here token holds
      exact skip_next few (early wait member here token holds)
    have second : holding.future.renumber ⟨event, none⟩ = holding.future :=
      Future.renumber_eq _ fun _ _ _ _ _ => rfl
    rw [Holding.renumber, Holding.renumber, first, second]
  · intro wait member here token holds same
    have before := early wait member here token holds
    rw [← Option.some.inj same, Registry.toNat_next few] at before
    exact Nat.lt_irrefl _ before

end Machine

/-! ## Two runs -/

/-- Where the wait stands that only the first of two runs makes. -/
inductive Phase where
  | unmade
  | alive
  | dropped
  deriving DecidableEq, Repr

/-- The token that has been given back when the wait was dropped, if it had one. -/
def Phase.withdrawn : Phase → Option Token → List Token
  | .dropped, hidden => hidden.toList
  | .unmade, _ | .alive, _ => []

/-- Two runs so far: the machines that they have reached, and what came of the calls that both have
made. The history of the first run also has what came of the calls that only this one made. -/
structure Twins (ω σ ν : Type) where
  first : Machine ω σ ν := {}
  second : Machine ω σ ν := {}
  history : List (Occurrence ω) := []
  firstTrace : List (Occurrence ω) := []
  secondTrace : List (Occurrence ω) := []
  firstWoken : List ω := []
  secondWoken : List ω := []
  firstAnswers : List (Option (Except Panic Reply)) := []
  secondAnswers : List (Option (Except Panic Reply)) := []

namespace Twins

/-- The first run alone makes a call. -/
def alone (twins : Twins ω σ ν) (turn : Turn ω σ ν) : Twins ω σ ν :=
  { twins with first := turn.machine, history := twins.history ++ turn.trace }

variable [Waker ω] [DecidableEq ν]

/-- Two runs make the same calls, with the same responses of signals; the waiters of an event may be
woken in any order in each. The first run also makes a wait, polls it and drops it before the event
is set. Meanwhile no other call names it. -/
inductive Runs (name : ν) (event : EventId) : Phase → Twins ω σ ν → Prop
  | start : Runs name event .unmade {}
  | both {phase : Phase} {twins : Twins ω σ ν} (runs : Runs name event phase twins)
      (action : Action ω σ ν) (ofWaits : action.ofWaits = true)
      (apart : phase = .alive → name ∉ action.names ∧ action ≠ .setEvent event)
      (response : Response σ) (choice otherChoice : Nat) {woken otherWoken : List ω}
      {trace otherTrace : List (Occurrence ω)} {last otherLast : Turn ω σ ν}
      (ends : Machine.Ends response (twins.first.perform choice action) woken trace last)
      (otherEnds : Machine.Ends response (twins.second.perform otherChoice action) otherWoken
        otherTrace otherLast) :
      Runs name event phase
        { first := last.machine, second := otherLast.machine
          history := twins.history ++ trace
          firstTrace := twins.firstTrace ++ trace
          secondTrace := twins.secondTrace ++ otherTrace
          firstWoken := twins.firstWoken ++ woken
          secondWoken := twins.secondWoken ++ otherWoken
          firstAnswers := twins.firstAnswers ++ [last.control.answer?]
          secondAnswers := twins.secondAnswers ++ [otherLast.control.answer?] }
  | make {twins : Twins ω σ ν} (runs : Runs name event .unmade twins) (hold : Hold)
      (unused : twins.first.futures.get? name = none)
      (unset : (twins.first.events.get event).isSet = false) (choice : Nat) :
      Runs name event .alive (twins.alone (twins.first.perform choice (.makeWait name event hold)))
  | poll {twins : Twins ω σ ν} (runs : Runs name event .alive twins) (waker : ω) (choice : Nat) :
      Runs name event .alive (twins.alone (twins.first.perform choice (.poll name waker)))
  | drop {twins : Twins ω σ ν} (runs : Runs name event .alive twins) (choice : Nat) :
      Runs name event .dropped (twins.alone (twins.first.perform choice (.drop name)))

/-- Whether the wait that only the first run makes is registered. -/
def registered (name : ν) (phase : Phase) (twins : Twins ω σ ν) : Bool :=
  phase = .alive ∧
    (twins.first.futures.get? name).any (·.future.isRegistered? = some true)

/-- Nobody can tell two runs apart but for the wait that only the first one makes. -/
structure Agree (name : ν) (phase : Phase) (gap : Gap) (twins : Twins ω σ ν) : Prop where
  flags : ∀ id, (twins.second.events.get id).isSet = (twins.first.events.get id).isSet
  answers : twins.secondAnswers = twins.firstAnswers
  isRegistered : ∀ own, (phase = .alive → own ≠ name) →
    (twins.second.futures.get? own).map (·.future.isRegistered?) =
      (twins.first.futures.get? own).map (·.future.isRegistered?)
  isTerminated : ∀ own, (phase = .alive → own ≠ name) →
    (twins.second.futures.get? own).map (·.future.isTerminated) =
      (twins.first.futures.get? own).map (·.future.isTerminated)
  woken : twins.secondWoken.Perm twins.firstWoken
  messages : Occurrence.messages twins.secondTrace =
    Occurrence.messages (twins.firstTrace.map (Occurrence.renumber gap))
  /-- The tokens that the messages tell of are renumbered in order. -/
  ordered : ∀ token ∈ withdrawals gap.event twins.firstTrace,
    ∀ other ∈ withdrawals gap.event twins.firstTrace, token.number < other.number →
      (gap.renumber gap.event token).number < (gap.renumber gap.event other).number
  waiting : ∀ id, ∃ count, (twins.second.events.get id).statistics = .ok ⟨count⟩ ∧
    (twins.first.events.get id).statistics = .ok
      ⟨if id = gap.event ∧ twins.registered name phase then count + 1 else count⟩
  /-- After the drop the same waits are registered, with the same wakers. -/
  futures : ∀ own, (phase = .alive → own ≠ name) → twins.second.futures.get? own =
    (twins.first.futures.get? own).map (Holding.renumber gap)
  registries : phase = .dropped → (twins.second.events.get gap.event).registry.entries =
    (twins.first.events.get gap.event).registry.entries.map fun entry =>
      (gap.renumber gap.event entry.1, entry.2)
  /-- In neither run a call hangs. -/
  ends : ∀ action : Action ω σ ν, action.ofWaits = true → ∀ (response : Response σ) (choice : Nat),
    (∃ woken trace last,
      Machine.Ends response (twins.first.perform choice action) woken trace last) ∧
    ∃ woken trace last,
      Machine.Ends response (twins.second.perform choice action) woken trace last

/-- How the wait stands that only the first run makes, and the token that it holds or gave back. -/
inductive Stands (name : ν) (event : EventId) (twins : Twins ω σ ν) :
    Phase → Option Token → Prop
  | unmade : Stands name event twins .unmade none
  | alive {wait : Wait} {hidden : Option Token}
      (held : twins.first.futures.get? name = some ⟨event, .plain wait⟩)
      (here : wait.event = event) (holds : wait.token = hidden)
      (unset : (twins.first.events.get event).isSet = false)
      (missing : twins.second.futures.get? name = none) :
      Stands name event twins .alive hidden
  | dropped (hidden : Option Token) : Stands name event twins .dropped hidden

/-- The two runs differ in the wait that only the first one makes, and in nothing else. -/
structure Sound (name : ν) (event : EventId) (phase : Phase) (hidden : Option Token)
    (twins : Twins ω σ ν) : Prop where
  alike : twins.first.Alike ⟨event, hidden⟩ (fun own => phase = .alive → own ≠ name) twins.second
  stands : Stands name event twins phase hidden
  ran : Machine.Run twins.history twins.first
  withdrawn : (withdrawals event twins.history).Perm
    (withdrawals event twins.firstTrace ++ phase.withdrawn hidden)
  woken : twins.secondWoken.Perm twins.firstWoken
  messages : Occurrence.messages twins.secondTrace =
    Occurrence.messages (twins.firstTrace.map (Occurrence.renumber ⟨event, hidden⟩))
  answers : twins.secondAnswers = twins.firstAnswers

section

variable {name : ν} {event : EventId} {phase : Phase} {hidden : Option Token}
  {twins : Twins ω σ ν}

theorem Sound.start : Sound name event .unmade none ({} : Twins ω σ ν) where
  alike :=
    { idle := rfl
      otherIdle := rfl
      events := ⟨rfl, fun _ => rfl, fun _ => rfl, fun _ => rfl, fun _ _ => rfl,
        ⟨rfl, fun _ => rfl, nofun⟩⟩
      futures := fun _ _ => rfl
      clear := nofun }
  stands := .unmade
  ran := .start
  withdrawn := .nil
  woken := .refl _
  messages := rfl
  answers := rfl

/-- Unless the wait is alive, its token is no member's. -/
theorem Sound.absent (sound : Sound name event phase hidden twins)
    (few : (registrations event twins.history).length ≤ Token.limit) (gone : phase ≠ .alive) :
    ∀ token, hidden = some token →
      token ∉ (twins.first.events.get event).registry.members.keys := by
  intro token same member
  cases sound.stands with
  | unmade => cases same
  | alive => exact gone rfl
  | dropped =>
      subst same
      have gaveBack : token ∈ withdrawals event twins.history :=
        sound.withdrawn.symm.subset (List.mem_append_right _ List.mem_cons_self)
      have unique := sound.ran.withdrawn_nodup event few
      exact (List.nodup_append.mp unique).2.2 token gaveBack token member rfl

/-- No wait that both runs make has given back the hidden token. -/
theorem Sound.shown (sound : Sound name event phase hidden twins)
    (few : (registrations event twins.history).length ≤ Token.limit) {token : Token}
    (told : token ∈ withdrawals event twins.firstTrace) : hidden ≠ some token := by
  have unique := sound.ran.withdrawn_nodup event few
  intro same
  cases sound.stands with
  | unmade => cases same
  | alive held here holds unset =>
      have gaveBack := sound.withdrawn.symm.subset (List.mem_append_left _ told)
      have fewer := sound.ran.issued_few few
      have member :=
        sound.ran.token_mem unset fewer held List.mem_cons_self here (holds.trans same)
      exact (List.nodup_append.mp unique).2.2 token gaveBack token member rfl
  | dropped =>
      subst same
      have twice := sound.withdrawn.nodup_iff.mp (List.nodup_append.mp unique).1
      exact (List.nodup_append.mp twice).2.2 token told token List.mem_cons_self rfl

/-- The wait gets the next token in its first poll and keeps it in the later ones. Either way nobody
else is renumbered. -/
theorem Sound.renewed (sound : Sound name event .alive hidden twins)
    (unset : (twins.first.events.get event).isSet = false) {token : Token}
    (known : hidden = none ∧ token = (twins.first.events.get event).registry.next ∧
      (twins.first.events.get event).registry.issued < Token.limit ∨ hidden = some token) :
    (∀ own holding, own ≠ name → twins.first.futures.get? own = some holding →
      holding.renumber ⟨event, some token⟩ = holding.renumber ⟨event, hidden⟩ ∧
        ∀ wait ∈ holding.future.waits, Gap.Clear ⟨event, some token⟩ wait) ∧
      Occurrence.messages twins.secondTrace =
        Occurrence.messages (twins.firstTrace.map (Occurrence.renumber ⟨event, some token⟩)) := by
  rcases known with ⟨rfl, rfl, few⟩ | rfl
  · refine ⟨fun _ _ _ found => sound.ran.beside_next unset few found, ?_⟩
    rw [sound.messages, Occurrence.messages_renumber, Occurrence.messages_renumber]
    · intro token told
      have gone :=
        sound.withdrawn.symm.subset (List.mem_append_left _ (mem_withdrawals.mpr told))
      exact Machine.skip_next few (sound.ran.withdrawn_lt unset (Nat.le_of_lt few) gone)
    · exact fun _ _ => rfl
  · refine ⟨fun own holding other found => ⟨rfl, ?_⟩, sound.messages⟩
    exact sound.alike.clear own holding (fun _ => other) found

theorem Sound.both (sound : Sound name event phase hidden twins) {action : Action ω σ ν}
    (ofWaits : action.ofWaits = true)
    (apart : phase = .alive → name ∉ action.names ∧ action ≠ .setEvent event)
    {response : Response σ} {choice otherChoice : Nat} {woken otherWoken : List ω}
    {trace otherTrace : List (Occurrence ω)} {last otherLast : Turn ω σ ν}
    (ends : Machine.Ends response (twins.first.perform choice action) woken trace last)
    (otherEnds : Machine.Ends response (twins.second.perform otherChoice action) otherWoken
      otherTrace otherLast)
    (few : (registrations event (twins.history ++ trace)).length ≤ Token.limit) :
    Sound name event phase hidden
      { first := last.machine, second := otherLast.machine
        history := twins.history ++ trace
        firstTrace := twins.firstTrace ++ trace
        secondTrace := twins.secondTrace ++ otherTrace
        firstWoken := twins.firstWoken ++ woken
        secondWoken := twins.secondWoken ++ otherWoken
        firstAnswers := twins.firstAnswers ++ [last.control.answer?]
        secondAnswers := twins.secondAnswers ++ [otherLast.control.answer?] } := by
  have alike := sound.alike
  have visible : ∀ own ∈ action.names, phase = .alive → own ≠ name := by
    rintro own member alive rfl
    exact (apart alive).1 member
  have absent : action = .setEvent event → ∀ token, hidden = some token →
      token ∉ (twins.first.events.get event).registry.members.keys := by
    exact fun sets => sound.absent (few_of_append few) fun alive => (apart alive).2 sets
  have run := ends.run sound.ran
  obtain ⟨after, wakes, told, answer⟩ := alike.ends ofWaits visible absent ends otherEnds
    (run.issued_few few)
  obtain ⟨kept, flags⟩ := ends.keeps ofWaits alike.events.free
  obtain ⟨otherKept, -⟩ := otherEnds.keeps ofWaits alike.events.otherFree
  refine ⟨after, ?_, run, ?_, sound.woken.append wakes, ?_, ?_⟩
  · cases sound.stands with
    | unmade => exact .unmade
    | alive held here holds unset missing =>
        obtain ⟨unnamed, other⟩ := apart rfl
        exact .alive ((kept name unnamed).trans held) here holds ((flags event other).trans unset)
          ((otherKept name unnamed).trans missing)
    | dropped => exact .dropped hidden
  · rw [withdrawals_append, withdrawals_append, List.append_assoc]
    refine (sound.withdrawn.append_right _).trans ?_
    rw [List.append_assoc]
    exact List.perm_append_comm.append_left _
  · rw [List.map_append]
    unfold Occurrence.messages at told ⊢
    rw [List.filterMap_append, List.filterMap_append, told]
    exact congrArg (· ++ _) sound.messages
  · rw [answer, sound.answers]

theorem Sound.make (sound : Sound name event .unmade hidden twins) (hold : Hold)
    (unused : twins.first.futures.get? name = none)
    (unset : (twins.first.events.get event).isSet = false) (choice : Nat) :
    Sound name event .alive none
      (twins.alone (twins.first.perform choice (.makeWait name event hold))) := by
  have alike := sound.alike
  have after := sound.ran.step (.perform choice (.makeWait name event hold))
  change Machine.Run (twins.history ++ (twins.first.makeWait name event hold).trace)
    (twins.first.makeWait name event hold).machine at after
  change Sound name event .alive none
    { twins with
      first := (twins.first.makeWait name event hold).machine
      history := twins.history ++ (twins.first.makeWait name event hold).trace }
  rw [Machine.makeWait_of_unused unused] at after ⊢
  cases sound.stands
  have made : (Wait.make twins.first.events event hold).2.Alike ⟨event, none⟩
      twins.second.events := by
    cases hold with
    | borrowed => exact alike.events
    | owned =>
        exact alike.events.of_same rfl (Events.isSet_modify _ event Event.hold fun _ => rfl)
          (Events.waiters_modify _ event Event.hold fun _ => rfl)
  have missing : twins.second.futures.get? name = none := by
    rw [alike.futures name nofun, unused]
    rfl
  have held : (twins.first.futures.insert name ⟨event, .plain { event, hold }⟩).get? name =
      some ⟨event, .plain { event, hold }⟩ := Table.get?_insert_self _ _ _
  refine ⟨?_, ?_, after, ?_, sound.woken, sound.messages, sound.answers⟩
  · -- From now on other calls stay away from the name.
    have narrow : twins.first.Alike ⟨event, none⟩ (fun own => Phase.alive = .alive → own ≠ name)
        twins.second := alike.widen fun _ _ => .inl nofun
    refine narrow.aside rfl made ?_ fun own holding visible found =>
      ⟨rfl, narrow.clear own holding visible found⟩
    intro own visible
    simp only [Table.get?_insert, if_neg (visible rfl)]
  · have flag := (made.flags event).symm.trans (alike.events.flags event)
    exact Stands.alive held rfl rfl (flag.trans unset) missing
  · simp only [List.append_nil]
    exact sound.withdrawn

theorem Sound.poll (sound : Sound name event .alive hidden twins) (waker : ω) (choice : Nat)
    (few : (registrations event
      (twins.alone (twins.first.perform choice (.poll name waker))).history).length ≤
        Token.limit) :
    ∃ token, Sound name event .alive (some token)
      (twins.alone (twins.first.perform choice (.poll name waker))) := by
  have alike := sound.alike
  have after := sound.ran.step (.perform choice (.poll name waker))
  have bounded := after.issued_few few
  change Machine.Run (twins.history ++ (twins.first.pollFuture name waker).trace)
    (twins.first.pollFuture name waker).machine at after
  cases sound.stands with
  | @alive wait _ held here holds unset missing =>
      subst holds
      have fewer := sound.ran.issued_few (few_of_append few)
      have member : ∀ own, wait.token = some own →
          own ∈ (twins.first.events.get event).registry.members.keys :=
        fun _ holds => sound.ran.token_mem unset fewer held List.mem_cons_self here holds
      obtain ⟨token, known, pending, renewed, polled, stays, untold⟩ :=
        Wait.poll_hidden alike.events here rfl unset member waker
          (Nat.le_trans (Machine.issued_le_pollFuture held waker event) bounded)
      obtain ⟨reached, trace⟩ := Machine.pollFuture_of_plain held pending
      refine ⟨token, ?_⟩
      change Sound name event .alive (some token)
        { twins with
          first := (twins.first.pollFuture name waker).machine
          history := twins.history ++ (twins.first.pollFuture name waker).trace }
      have unwithdrawn : withdrawals event (twins.first.pollFuture name waker).trace = [] := by
        rw [trace]
        exact List.eq_nil_iff_forall_not_mem.mpr fun own gone =>
          untold own (mem_withdrawals.mp gone)
      rw [reached, renewed] at after ⊢
      obtain ⟨moved, messages⟩ := sound.renewed unset known
      refine ⟨?_, ?_, after, ?_, sound.woken, messages, sound.answers⟩
      · refine alike.aside rfl polled ?_ fun own holding visible => moved own holding (visible rfl)
        intro own visible
        simp only [Table.get?_insert, Table.get?_erase, if_neg (visible rfl)]
      · exact Stands.alive (Table.get?_insert_self _ _ _) here rfl stays missing
      · rw [withdrawals_append, unwithdrawn, List.append_nil]
        exact sound.withdrawn

theorem Sound.drop (sound : Sound name event .alive hidden twins)
    (few : (registrations event twins.history).length ≤ Token.limit) (choice : Nat) :
    Sound name event .dropped hidden
      (twins.alone (twins.first.perform choice (.drop name))) := by
  have alike := sound.alike
  have after := sound.ran.step (.perform choice (.drop name))
  change Machine.Run (twins.history ++ (twins.first.dropFuture name).trace)
    (twins.first.dropFuture name).machine at after
  change Sound name event .dropped hidden
    { twins with
      first := (twins.first.dropFuture name).machine
      history := twins.history ++ (twins.first.dropFuture name).trace }
  cases sound.stands with
  | @alive wait _ held here holds unset missing =>
      subst holds
      have member : ∀ own, wait.token = some own →
          own ∈ (twins.first.events.get event).registry.members.keys :=
        fun _ holds => sound.ran.token_mem unset (sound.ran.issued_few few) held
          List.mem_cons_self here holds
      obtain ⟨-, dropped, told⟩ := Wait.drop_hidden alike.events here rfl member
      obtain ⟨reached, trace⟩ := Machine.dropFuture_of_plain held
      rw [reached, trace, told] at after ⊢
      have gone : (twins.first.futures.erase name).get? name = none := Table.get?_erase_self _ _
      refine ⟨?_, .dropped _, after, ?_, sound.woken, sound.messages, sound.answers⟩
      · have aside : Machine.Alike ⟨event, wait.token⟩
            (fun own => Phase.alive = .alive → own ≠ name)
            { twins.first with
              events := (wait.drop twins.first.events).events
              futures := twins.first.futures.erase name } twins.second := by
          refine alike.aside rfl dropped ?_ fun own holding visible found =>
            ⟨rfl, alike.clear own holding visible found⟩
          intro own visible
          simp only [Table.get?_erase, if_neg (visible rfl)]
        -- Neither run has a future under the name now, so it may be seen again.
        refine aside.widen fun own _ => ?_
        by_cases same : own = name
        · subst same
          exact .inr ⟨gone, missing⟩
        · exact .inl fun _ => same
      · have gaveBack : withdrawals event
            (wait.token.toList.map (Occurrence.withdrawn (ω := ω) event)) = wait.token.toList := by
          cases wait.token with
          | none => rfl
          | some token => simp [withdrawals, Occurrence.withdraws?]
        rw [withdrawals_append, gaveBack]
        exact (sound.withdrawn.trans (.of_eq (List.append_nil _))).append_right _

theorem Runs.sound (runs : Runs name event phase twins)
    (few : (registrations event twins.history).length ≤ Token.limit) :
    ∃ hidden, Sound name event phase hidden twins := by
  induction runs with
  | start => exact ⟨none, .start⟩
  | both _ action ofWaits apart response choice otherChoice ends otherEnds ih =>
      obtain ⟨hidden, sound⟩ := ih (few_of_append few)
      exact ⟨hidden, sound.both ofWaits apart ends otherEnds few⟩
  | make _ hold unused unset choice ih =>
      obtain ⟨hidden, sound⟩ := ih (few_of_append few)
      exact ⟨none, sound.make hold unused unset choice⟩
  | poll _ waker choice ih =>
      obtain ⟨hidden, sound⟩ := ih (few_of_append few)
      obtain ⟨token, sound⟩ := sound.poll waker choice few
      exact ⟨some token, sound⟩
  | drop _ choice ih =>
      obtain ⟨hidden, sound⟩ := ih (few_of_append few)
      exact ⟨hidden, sound.drop (few_of_append few) choice⟩

theorem Sound.registered_iff (sound : Sound name event phase hidden twins) :
    twins.registered name phase = true ↔ phase = .alive ∧ hidden.isSome = true := by
  cases sound.stands with
  | alive held _ holds => simp [registered, held, Future.isRegistered?, Wait.isRegistered, holds]
  | unmade | dropped => simp [registered]

theorem Sound.size (sound : Sound name event phase hidden twins)
    (few : (registrations event twins.history).length ≤ Token.limit) (id : EventId) :
    (twins.first.events.get id).registry.size =
      if id = event ∧ twins.registered name phase = true then
        (twins.second.events.get id).registry.size + 1
      else (twins.second.events.get id).registry.size := by
  have events := sound.alike.events
  split
  · next here =>
      obtain ⟨rfl, counts⟩ := here
      have fewer := sound.ran.issued_few few
      obtain ⟨alive, holds⟩ := sound.registered_iff.mp counts
      obtain ⟨token, same⟩ := Option.isSome_iff_exists.mp holds
      cases sound.stands with
      | unmade | dropped => cases alive
      | alive held here holds unset =>
          have member :=
            sound.ran.token_mem unset fewer held List.mem_cons_self here (holds.trans same)
          have hides := events.hides
          simp only [same] at hides
          exact hides.size_of_mem member
  · next elsewhere =>
      refine (events.size_of_not_mem ?_).symm
      rintro rfl token same
      refine sound.absent few (fun alive => elsewhere ⟨rfl, ?_⟩) token same
      exact sound.registered_iff.mpr ⟨alive, Option.isSome_iff_exists.mpr ⟨token, same⟩⟩

/-- Two runs make the same calls, and one of them makes, polls and drops one more wait before its
event is set. At every moment the two look the same: in their answers, in the waiters that were
woken, in the messages but for the numbers of the event's tokens, and in the number of the waiters
of each event, but that the wait itself counts while it is registered. The first run must not have
made more registrations with that event than there are tokens. -/
theorem dropped_wait_disturbs_nobody (runs : Runs name event phase twins)
    (few : (registrations event twins.history).length ≤ Token.limit) :
    ∃ hidden, twins.Agree name phase ⟨event, hidden⟩ := by
  obtain ⟨hidden, sound⟩ := runs.sound few
  have alike := sound.alike
  refine ⟨hidden, ?_⟩
  constructor
  case flags => exact alike.events.flags
  case answers => exact sound.answers
  case futures => exact alike.futures
  case woken => exact sound.woken
  case messages => exact sound.messages
  case isRegistered =>
    intro own visible
    rw [alike.futures own visible, Option.map_map]
    congr 1
    funext holding
    exact holding.future.isRegistered?_renumber _
  case isTerminated =>
    intro own visible
    rw [alike.futures own visible, Option.map_map]
    congr 1
    funext holding
    exact holding.future.isTerminated_renumber _
  case ordered =>
    intro token told other alsoTold earlier
    rw [Gap.renumber_here _ rfl]
    exact Token.skip_lt (sound.shown few told) (sound.shown few alsoTold) earlier
  case waiting =>
    intro id
    refine ⟨_, Event.statistics_of_free (alike.events.otherFree id), ?_⟩
    rw [Event.statistics_of_free (alike.events.free id), sound.size few id]
  case registries =>
    intro dropped
    rw [Gap.renumber_here _ rfl]
    exact alike.events.hides.entries_of_not_mem (sound.absent few (dropped ▸ nofun))
  case ends =>
    intro action ofWaits response choice
    exact ⟨twins.first.exists_ends ofWaits response choice,
      twins.second.exists_ends ofWaits response choice⟩

end

/-- The wait registers first and is dropped before another one is; a race of a third one is polled
and asks its signal, and the event is set in the end. -/
theorem dropped_wait_disturbs_nobody_registered_first :
    ∃ twins : Twins Pool.TaskId Nat Nat, Runs 9 ⟨0⟩ .dropped twins ∧
      Occurrence.messages twins.firstTrace =
        ["wait dropped before event was set token=WaitToken(2)",
          "releasing all waiters count=2", "event set released=2"] ∧
      Occurrence.messages twins.secondTrace =
        ["wait dropped before event was set token=WaitToken(1)",
          "releasing all waiters count=2", "event set released=2"] ∧
      twins.firstWoken = [⟨1⟩, ⟨3⟩] ∧ twins.secondWoken.Perm [⟨1⟩, ⟨3⟩] ∧
      (twins.second.events.get ⟨0⟩).isSet = true := by
  have begun : Runs 9 ⟨0⟩ .unmade ({} : Twins Pool.TaskId Nat Nat) := .start
  have runs := begun
    |>.both .makeEvent rfl nofun .ready 0 0 (.finished rfl) (.finished rfl)
    |>.make .owned rfl rfl 0
    |>.poll ⟨7⟩ 0
    |>.both (.makeWait 0 ⟨0⟩ .borrowed) rfl (fun _ => ⟨by decide, nofun⟩) .ready 0 0
      (.finished rfl) (.finished rfl)
    |>.both (.poll 0 ⟨1⟩) rfl (fun _ => ⟨by decide, nofun⟩) .ready 0 0
      (.finished rfl) (.finished rfl)
    |>.both (.makeWait 1 ⟨0⟩ .owned) rfl (fun _ => ⟨by decide, nofun⟩) .ready 0 0
      (.finished rfl) (.finished rfl)
    |>.both (.poll 1 ⟨2⟩) rfl (fun _ => ⟨by decide, nofun⟩) .ready 0 0
      (.finished rfl) (.finished rfl)
    |>.both (.makeWait 2 ⟨0⟩ .borrowed) rfl (fun _ => ⟨by decide, nofun⟩) .ready 0 0
      (.finished rfl) (.finished rfl)
    |>.both (.race 2 (.external 5)) rfl (fun _ => ⟨by decide, nofun⟩) .ready 0 0
      (.finished rfl) (.finished rfl)
    |>.both (.poll 2 ⟨3⟩) rfl (fun _ => ⟨by decide, nofun⟩) (.pending 6) 0 0
      (.asked rfl 0 (.finished rfl)) (.asked rfl 0 (.finished rfl))
    |>.drop 0
    |>.both (.drop 1) rfl nofun .ready 0 0 (.finished rfl) (.finished rfl)
    |>.both (.setEvent ⟨0⟩) rfl nofun .ready 0 1 (.woken rfl 0 (.woken rfl 0 (.finished rfl)))
      (.woken rfl 0 (.woken rfl 0 (.finished rfl)))
  obtain ⟨hidden, agree⟩ := dropped_wait_disturbs_nobody runs (by decide)
  exact ⟨_, runs, rfl, rfl, rfl, agree.woken, (agree.flags ⟨0⟩).trans rfl⟩

end Twins

end Latch
