import Latch.Proofs.Membership
import Mathlib.Data.List.Perm.Subperm

/-!
# Emptying a registry

The members of a registry can be released one after another until none is left, or all at once. Both
ways call the waker of each member once and leave an empty registry behind, whose tokens go on where
they were. They differ if a waker breaks off: the members that were not released yet stay, unless
all were to be released.
-/

set_option autoImplicit false

namespace Latch

variable {ω σ ν : Type}

namespace Registry

/-! ## Members that were released -/

/-- Some members of a registry were released in this order, each by a call of its waker. The others
are left, with their tokens and wakers. -/
structure Released (registry : Registry ω) (tokens : List Token) (called : List ω)
    (rest : Registry ω) : Prop where
  distinct : tokens.Nodup
  stored : tokens.map registry.get? = called.map some
  left : ∀ token, rest.get? token = if token ∈ tokens then none else registry.get? token
  size : tokens.length + rest.size = registry.size
  next : rest.issued = registry.issued

theorem size_remove {registry : Registry ω} {token : Token} {waker : ω}
    (found : registry.get? token = some waker) :
    (registry.remove token).size + 1 = registry.size := by
  have lengths := (Table.values_perm_of_get? found).length_eq
  simpa [size, remove, Table.size, Table.values] using lengths.symm

theorem eq_emptied {registry rest : Registry ω} (none : rest.size = 0)
    (next : rest.issued = registry.issued) : rest = registry.emptied := by
  have same : rest.next = registry.next := by rw [rest.counted, next, ← registry.counted]
  obtain ⟨⟨entries, unique⟩, token, issued, counted, fresh⟩ := rest
  obtain rfl : entries = [] := List.length_eq_zero_iff.mp none
  obtain rfl : issued = registry.issued := next
  obtain rfl : token = registry.next := same
  rfl

theorem map_get?_keys (registry : Registry ω) :
    registry.members.keys.map registry.get? = registry.members.values.map some := by
  simp only [Table.keys, Table.values, List.map_map]
  apply List.map_congr_left
  intro entry member
  exact Table.get?_of_mem member

namespace Released

variable {registry rest : Registry ω} {tokens : List Token} {called : List ω}

theorem nothing (registry : Registry ω) : registry.Released [] [] registry where
  distinct := .nil
  stored := rfl
  left token := by simp
  size := Nat.zero_add _
  next := rfl

theorem found (released : registry.Released tokens called rest) {token : Token} {waker : ω}
    (stays : rest.get? token = some waker) :
    token ∉ tokens ∧ registry.get? token = some waker := by
  rw [released.left] at stays
  split at stays
  · cases stays
  · next apart => exact ⟨apart, stays⟩

theorem take (released : registry.Released tokens called rest) {entry : Token × ω}
    (stays : rest.get? entry.1 = some entry.2) :
    registry.Released (tokens ++ [entry.1]) (called ++ [entry.2]) (rest.remove entry.1) := by
  obtain ⟨apart, found⟩ := released.found stays
  constructor
  · refine List.nodup_append.mpr ⟨released.distinct, by simp, ?_⟩
    rintro token member _ here rfl
    exact apart (List.mem_singleton.mp here ▸ member)
  · simp [released.stored, found]
  · intro token
    rw [get?_remove, released.left]
    by_cases same : token = entry.1 <;> simp [same]
  · have sizes := released.size
    have less := size_remove stays
    rw [List.length_append, List.length_singleton]
    omega
  · exact released.next

/-- As many members as there are were released, so these are all. -/
theorem all (released : registry.Released tokens called rest)
    (whole : tokens.length = registry.size) :
    tokens.Perm registry.members.keys ∧ called.Perm registry.members.values ∧
      rest = registry.emptied := by
  have members : tokens ⊆ registry.members.keys := by
    intro token member
    have inside : registry.get? token ∈ called.map some := by
      rw [← released.stored]
      exact List.mem_map_of_mem member
    obtain ⟨waker, -, found⟩ := List.mem_map.mp inside
    exact Table.contains_iff.mp ((contains_iff _ _).mpr ⟨waker, found.symm⟩)
  have keys : tokens.Perm registry.members.keys := by
    apply (List.subperm_of_subset released.distinct members).perm_of_length_le
    rw [whole]
    exact Nat.le_of_eq (List.length_map Prod.fst)
  have wakers := keys.map registry.get?
  rw [released.stored, map_get?_keys] at wakers
  refine ⟨keys, (List.map_perm_map_iff fun _ _ => Option.some.inj).mp wakers, ?_⟩
  have sizes := released.size
  exact eq_emptied (by omega) released.next

end Released

end Registry

/-! ## Calls on a registry -/

/-- The registry that an action is for. -/
def Action.serves? : Action ω σ ν → Option ν
  | .add name _ | .update name _ _ | .remove name _ => some name
  | .releaseAll name | .releaseOne name | .drain name => some name
  | .makeEvent | .setEvent _ | .makeWait .. | .poll .. | .drop _ | .race .. | .wake .. => none
  | .makeRegistry .. | .dropRegistry _ => none

/-- The registry that a suspended call is for. -/
def Call.serves? : Call ω σ ν → Option ν
  | .releasingAll name _ _ _ | .releasingOne name _ _ | .draining name _ _ => some name
  | .setting .. | .polling .. | .waking .. => none

/-- A call on a registry, what it came to, and the wakers that it called. -/
structure Service (ω σ ν : Type) where
  action : Action ω σ ν
  outcome : Except Panic Reply
  called : List ω

namespace Machine

variable [Waker ω] [DecidableEq ν]

/-- Calls on a registry one after another. Its wakers do what they like before they come back or
break off. -/
inductive Serves (name : ν) : Machine ω σ ν → List (Service ω σ ν) → Machine ω σ ν → Prop
  | nothing {machine : Machine ω σ ν} : Serves name machine [] machine
  | answers {machine last : Machine ω σ ν} {action : Action ω σ ν} {choice : Nat}
      {called : List ω} {trace : List (Occurrence ω)} {turn : Turn ω σ ν} {reply : Reply}
      {services : List (Service ω σ ν)} (serves : action.serves? = some name)
      (advances : Advances (machine.perform choice action) called trace turn)
      (done : turn.control = .done reply) (later : Serves name turn.machine services last) :
      Serves name machine (⟨action, .ok reply, called⟩ :: services) last
  | breaks {machine last : Machine ω σ ν} {action : Action ω σ ν} {choice : Nat}
      {called : List ω} {trace : List (Occurrence ω)} {turn : Turn ω σ ν} {panic : Panic}
      {services : List (Service ω σ ν)} (serves : action.serves? = some name)
      (breaks : BreaksOff (machine.perform choice action) panic called trace turn)
      (later : Serves name turn.machine services last) :
      Serves name machine (⟨action, .error panic, called⟩ :: services) last

/-- Two calls on registries that are alike have come equally far: the same waker is woken for the
same call, or both are over and the registries are still alike. -/
inductive Agrees (name : ν) (base others : List (Call ω σ ν)) (turn other : Turn ω σ ν) : Prop
  | finished (control : other.control = turn.control) (silent : ∀ waker, turn.control ≠ .wake waker)
      (same : other.machine.registries.get? name = turn.machine.registries.get? name)
  | waking (waker : ω) (wakes : turn.control = .wake waker) (alike : other.control = .wake waker)
      (call : Call ω σ ν) (serves : call.serves? = some name)
      (calls : turn.machine.calls = call :: base) (again : other.machine.calls = call :: others)

section

variable {name : ν} {machine other : Machine ω σ ν} {base others : List (Call ω σ ν)}

omit [Waker ω] in
theorem continueReleaseAll_agrees (machine other : Machine ω σ ν) (registry : Registry ω)
    (released choice : Nat) (remaining : List (Token × ω)) :
    Agrees name machine.calls other.calls
      (machine.continueReleaseAll name registry released remaining choice)
      (other.continueReleaseAll name registry released remaining choice) := by
  unfold continueReleaseAll
  split
  · next entry rest picked => exact .waking entry.2 rfl rfl _ rfl rfl rfl
  · exact .finished rfl (by rintro _ ⟨⟩) (by simp [storeRegistry])

omit [Waker ω] in
theorem continueDrain_agrees (machine other : Machine ω σ ν) (registry : Registry ω)
    (released : List Token) (choice : Nat) :
    Agrees name machine.calls other.calls (machine.continueDrain name registry released choice)
      (other.continueDrain name registry released choice) := by
  unfold continueDrain
  split
  · exact .finished rfl (by rintro _ ⟨⟩) (by simp [storeRegistry])
  · next entry rest taken => exact .waking entry.2 rfl rfl _ rfl rfl rfl

theorem perform_agrees {action : Action ω σ ν} (serves : action.serves? = some name)
    (same : other.registries.get? name = machine.registries.get? name) (choice : Nat) :
    Agrees name machine.calls other.calls (machine.perform choice action)
      (other.perform choice action) := by
  have idle : Agrees name machine.calls other.calls machine.idle other.idle :=
    .finished rfl (by rintro _ ⟨⟩) same
  cases action with
  | makeEvent | setEvent | makeWait | poll | drop | race | wake => cases serves
  | makeRegistry | dropRegistry => cases serves
  | add | update | remove =>
      cases serves
      simp only [perform, addMember, updateMember, removeMember, same]
      split
      · exact idle
      · exact .finished rfl (by rintro _ ⟨⟩) (by simp [storeRegistry])
  | releaseAll =>
      cases serves
      simp only [perform, releaseAll, same]
      split
      · exact idle
      · next registry found =>
          cases continueReleaseAll_agrees (machine.withoutRegistry name)
              (other.withoutRegistry name) registry.emptied registry.size choice
              registry.entries with
          | finished control silent same => exact .finished control silent same
          | waking waker wakes alike call serves calls again =>
              exact .waking waker wakes alike call serves calls again
  | releaseOne =>
      cases serves
      simp only [perform, releaseOne, same]
      split
      · exact idle
      · split
        · exact .finished rfl (by rintro _ ⟨⟩) same
        · next entry rest taken => exact .waking entry.2 rfl rfl _ rfl rfl rfl
  | drain =>
      cases serves
      simp only [perform, drain, same]
      split
      · exact idle
      · next registry found =>
          exact continueDrain_agrees (machine.withoutRegistry name) (other.withoutRegistry name)
            registry [] choice

omit [Waker ω] in
theorem resume_agrees {call : Call ω σ ν} (serves : call.serves? = some name)
    (calls : machine.calls = call :: base) (again : other.calls = call :: others)
    (response : Response σ) (choice : Nat) :
    Agrees name base others (machine.resume response choice)
      (other.resume response choice) := by
  simp only [resume, calls, again]
  cases call with
  | setting | polling | waking => cases serves
  | releasingAll own registry released remaining =>
      cases serves
      cases response with
      | panicked => exact .finished rfl (by rintro _ ⟨⟩) (by simp [storeRegistry])
      | ready | pending =>
          exact continueReleaseAll_agrees { machine with calls := base }
            { other with calls := others } registry released choice remaining
  | releasingOne =>
      cases serves
      cases response <;> exact .finished rfl (by rintro _ ⟨⟩) (by simp [storeRegistry])
  | draining own registry released =>
      cases serves
      cases response with
      | panicked => exact .finished rfl (by rintro _ ⟨⟩) (by simp [storeRegistry])
      | ready | pending =>
          exact continueDrain_agrees { machine with calls := base } { other with calls := others }
            registry released choice

omit [Waker ω] in
theorem control_of_broken {call : Call ω σ ν} (serves : call.serves? = some name)
    (calls : machine.calls = call :: base) (panic : Panic) (choice : Nat) :
    (machine.resume (.panicked panic) choice).control = .panicked panic := by
  simp only [resume, calls]
  cases call with
  | setting | polling | waking => cases serves
  | releasingAll | releasingOne | draining => rfl

/-- The wakers of a registry that is like another one may do nothing at all before they come
back. -/
theorem Advances.again {action : Action ω σ ν} {choice : Nat} {called : List ω}
    {trace : List (Occurrence ω)} {turn : Turn ω σ ν}
    (advances : Advances (machine.perform choice action) called trace turn)
    (serves : action.serves? = some name)
    (same : other.registries.get? name = machine.registries.get? name) :
    ∃ told reached, Advances (other.perform choice action) called told reached ∧
      Agrees name machine.calls other.calls turn reached := by
  induction advances with
  | start => exact ⟨_, _, .start, perform_agrees serves same choice⟩
  | @back called trace inner turn waker after _ wakes within returned response unbroken choice ih =>
      obtain ⟨told, reached, advances, agrees⟩ := ih
      cases agrees with
      | finished _ silent => exact absurd wakes (silent waker)
      | waking own wakes' alike call serves calls again =>
          cases wakes.symm.trans wakes'
          refine ⟨_, _, advances.back alike .refl rfl response unbroken choice, ?_⟩
          exact resume_agrees serves (returned.trans calls) again response choice

theorem BreaksOff.again {action : Action ω σ ν} {choice : Nat} {panic : Panic} {called : List ω}
    {trace : List (Occurrence ω)} {turn : Turn ω σ ν}
    (breaks : BreaksOff (machine.perform choice action) panic called trace turn)
    (serves : action.serves? = some name)
    (same : other.registries.get? name = machine.registries.get? name) :
    ∃ told reached, BreaksOff (other.perform choice action) panic called told reached ∧
      reached.machine.registries.get? name = turn.machine.registries.get? name := by
  cases breaks with
  | @breaks called trace inner turn waker after advances wakes within returned choice =>
      obtain ⟨told, reached, advances, agrees⟩ := advances.again serves same
      cases agrees with
      | finished _ silent => exact absurd wakes (silent waker)
      | waking own wakes' alike call serves calls again =>
          cases wakes.symm.trans wakes'
          refine ⟨_, _, .breaks advances alike .refl rfl choice, ?_⟩
          have broken := control_of_broken serves (returned.trans calls) panic choice
          cases resume_agrees serves (returned.trans calls) again (.panicked panic) choice with
          | finished _ _ same => exact same
          | waking _ wakes =>
              rw [broken] at wakes
              cases wakes

/-- What calls on a registry come to depends on nothing but the registry. -/
theorem Serves.again {last : Machine ω σ ν} {services : List (Service ω σ ν)}
    (serving : Serves name machine services last)
    (same : other.registries.get? name = machine.registries.get? name) :
    ∃ final, Serves name other services final := by
  induction serving generalizing other with
  | nothing => exact ⟨other, .nothing⟩
  | answers serves advances done _ ih =>
      obtain ⟨told, reached, advances, agrees⟩ := advances.again serves same
      cases agrees with
      | finished control _ same =>
          obtain ⟨final, later⟩ := ih same
          exact ⟨final, .answers serves advances (control.trans done) later⟩
      | waking _ wakes =>
          rw [done] at wakes
          cases wakes
  | breaks serves breaks _ ih =>
      obtain ⟨told, reached, breaks, same⟩ := breaks.again serves same
      obtain ⟨final, later⟩ := ih same
      exact ⟨final, .breaks serves breaks later⟩

end

/-! ## One release after another -/

/-- Members of a registry are released one after another, each by a call of its own. The wakers do
what they like before they come back. -/
inductive OneByOne (name : ν) (start : Machine ω σ ν) :
    List Token → List ω → Machine ω σ ν → Prop
  | none : OneByOne name start [] [] start
  | next {tokens : List Token} {called calls : List ω} {machine : Machine ω σ ν}
      (earlier : OneByOne name start tokens called machine) (choice : Nat)
      {trace : List (Occurrence ω)} {turn : Turn ω σ ν} {token : Token}
      (advances : Advances (machine.perform choice (.releaseOne name)) calls trace turn)
      (done : turn.control = .done (.token (some token))) :
      OneByOne name start (tokens ++ [token]) (called ++ calls) turn.machine

section

variable {name : ν} {machine start : Machine ω σ ν} {registry : Registry ω}

/-- A release of a certain member calls its waker, and answers its token when that came back. -/
def Releases (name : ν) (machine : Machine ω σ ν) (registry : Registry ω) (choice : Nat)
    (entry : Token × ω) : Prop :=
  (machine.perform choice (.releaseOne name)).trace =
      [.releasingOne entry.1, .woken none entry.1 entry.2] ∧
    ∀ calls trace turn, Advances (machine.perform choice (.releaseOne name)) calls trace turn →
      calls = [] ∧ turn.control = .wake entry.2 ∨
      calls = [entry.2] ∧ turn.control = .done (.token (some entry.1)) ∧
        turn.machine.registries.get? name = some (registry.remove entry.1)

theorem releases_of_takeOne? (found : machine.registries.get? name = some registry)
    {choice : Nat} {entry : Token × ω} {rest : Registry ω}
    (taken : registry.takeOne? choice = some (entry, rest)) :
    Releases name machine registry choice entry := by
  obtain ⟨rfl, -⟩ := Registry.takeOne?_spec taken
  have begins : machine.perform choice (.releaseOne name) =
      { machine := (machine.withoutRegistry name).push
          (.releasingOne name (registry.remove entry.1) entry.1)
        trace := [.releasingOne entry.1, .woken none entry.1 entry.2]
        control := .wake entry.2 } := by
    simp only [perform, releaseOne, found, taken]
  rw [Releases, begins]
  refine ⟨rfl, fun calls trace turn advances => ?_⟩
  rcases advances.releasedOne rfl rfl with ⟨rfl, rfl⟩ | ended
  · exact .inl ⟨rfl, rfl⟩
  · exact .inr ended

/-- As long as there are members, each choice releases one of them. -/
theorem exists_releases (found : machine.registries.get? name = some registry)
    (waiting : 0 < registry.size) (choice : Nat) :
    ∃ entry : Token × ω, registry.get? entry.1 = some entry.2 ∧
      Releases name machine registry choice entry := by
  cases taken : registry.takeOne? choice with
  | none =>
      have none := Registry.entries_of_takeOne?_eq_none taken
      have empty : registry.size = 0 := congrArg List.length none
      omega
  | some result =>
      exact ⟨result.1, (Registry.takeOne?_spec taken).2, releases_of_takeOne? found taken⟩

/-- Each member is released by some choice. -/
theorem exists_choice (found : machine.registries.get? name = some registry) {entry : Token × ω}
    (member : registry.get? entry.1 = some entry.2) :
    ∃ choice, Releases name machine registry choice entry := by
  obtain ⟨index, below, here⟩ := List.mem_iff_getElem.mp (Table.mem_of_find? member)
  have small : index % registry.size = index := Nat.mod_eq_of_lt below
  have picked : registry.entries[index]? = some entry := List.getElem?_eq_some_iff.mpr ⟨below, here⟩
  have taken : registry.takeOne? index = some (entry, registry.remove entry.1) := by
    rw [Registry.takeOne?, small, picked]
    rfl
  exact ⟨index, releases_of_takeOne? found taken⟩

theorem OneByOne.released {tokens : List Token} {called : List ω}
    (steps : OneByOne name start tokens called machine)
    (found : start.registries.get? name = some registry) :
    ∃ rest, machine.registries.get? name = some rest ∧ registry.Released tokens called rest := by
  induction steps with
  | none => exact ⟨registry, found, .nothing registry⟩
  | next _ choice advances done ih =>
      obtain ⟨rest, there, released⟩ := ih
      rcases releaseOne_over there advances done with ⟨-, same, -⟩ | ⟨entry, stays, same, rfl, left⟩
      · cases same
      · cases same
        exact ⟨_, left, released.take stays⟩

/-- The members of a registry can be updated, removed and released. -/
structure Usable (name : ν) (machine : Machine ω σ ν) (registry : Registry ω) : Prop where
  update : ∀ token stored, registry.get? token = some stored → ∀ choice waker,
    (machine.perform choice (.update name token waker)).machine =
        machine.storeRegistry name (registry.update token waker).2 ∧
      (machine.perform choice (.update name token waker)).control = .done (.found true)
  remove : ∀ token stored, registry.get? token = some stored → ∀ choice,
    machine.perform choice (.remove name token) =
      { machine := machine.storeRegistry name (registry.remove token)
        control := .done (.found true) }
  release : ∀ token stored, registry.get? token = some stored →
    ∃ choice, Releases name machine registry choice (token, stored)

theorem usable (found : machine.registries.get? name = some registry) :
    Usable name machine registry := by
  have present : ∀ token stored, registry.get? token = some stored →
      registry.contains token = true := by
    intro token stored member
    exact (registry.contains_iff token).mpr ⟨stored, member⟩
  constructor
  · intro token stored member choice waker
    rw [← present token stored member]
    exact perform_update found choice token waker
  · intro token stored member choice
    rw [← present token stored member]
    exact perform_remove found choice token
  · intro token stored member
    exact exists_choice found member

/-- The release of all members calls their wakers one after another and then answers how many they
were. -/
theorem releaseAll_counts (found : machine.registries.get? name = some registry) {choice : Nat}
    {called : List ω} {trace : List (Occurrence ω)} {turn : Turn ω σ ν}
    (advances : Advances (machine.perform choice (.releaseAll name)) called trace turn) :
    (called.length < registry.size ∧ ∃ waker, turn.control = .wake waker) ∨
      called.length = registry.size ∧ turn.control = .done (.released registry.size) := by
  cases releaseAll_emptying found advances with
  | waking before rest entry all names wakes =>
      have lengths : before.length + (rest.length + 1) = registry.size :=
        List.length_append.symm.trans all.length_eq
      refine .inl ⟨?_, entry.2, wakes⟩
      rw [names, List.length_map]
      omega
  | ended all ends _ => exact .inr ⟨all.length_eq.trans (List.length_map _), ends⟩

/-- The releases of single members are over, and came to the same as one release of all. -/
structure AsAll (name : ν) (start : Machine ω σ ν) (registry : Registry ω) (tokens : List Token)
    (called : List ω) (after : Machine ω σ ν) : Prop where
  nobody : ∀ choice, after.perform choice (.releaseOne name) =
    { machine := after, control := .done (.token none) }
  members : tokens.Perm registry.members.keys
  wakers : called.Perm registry.members.values
  left : after.registries.get? name = some registry.emptied
  same : ∀ choice calls trace turn reply,
    Advances (start.perform choice (.releaseAll name)) calls trace turn →
    turn.control = .done reply →
      reply = .released registry.size ∧ calls.Perm called ∧
      turn.machine.registries.get? name = after.registries.get? name ∧
      ∀ services, (∃ last, Serves name turn.machine services last) ↔
        ∃ last, Serves name after services last

theorem OneByOne.asAll {tokens : List Token} {called : List ω}
    (steps : OneByOne name start tokens called machine)
    (found : start.registries.get? name = some registry)
    (whole : tokens.length = registry.size) :
    AsAll name start registry tokens called machine := by
  obtain ⟨rest, there, released⟩ := steps.released found
  obtain ⟨keys, wakers, rfl⟩ := released.all whole
  constructor
  · intro choice
    rcases releaseOne_spec there choice with ⟨-, same⟩ | ⟨entry, stays, -⟩
    · exact same
    · rw [Registry.get?_emptied] at stays
      cases stays
  · exact keys
  · exact wakers
  · exact there
  · intro choice calls trace turn reply advances done
    obtain ⟨answer, all, stored⟩ := releaseAll_over found advances done
    have alike := stored.trans there.symm
    refine ⟨answer, all.trans wakers.symm, alike, ?_⟩
    intro services
    constructor
    · rintro ⟨last, serving⟩
      exact serving.again alike.symm
    · rintro ⟨last, serving⟩
      exact serving.again alike

/-- Whichever member each release takes, there are as many releases as there are members, and each
answers the token of another one and calls its waker once. Then there is nothing left to release:
the wakers that were called, the registry and its answers from then on are those of one release of
all. If a waker breaks off, the members that were released until then are gone, and the others stay
as they are, with their tokens and wakers. A release of all leaves nothing behind even then. -/
theorem one_by_one_agrees_with_all (found : machine.registries.get? name = some registry) :
    (∀ tokens called after, OneByOne name machine tokens called after →
      ∃ rest, after.registries.get? name = some rest ∧ registry.Released tokens called rest ∧
        Usable name after rest ∧
        (tokens.length < registry.size → ∀ choice, ∃ entry : Token × ω,
          rest.get? entry.1 = some entry.2 ∧ Releases name after rest choice entry) ∧
        (tokens.length = registry.size → AsAll name machine registry tokens called after) ∧
        ∀ choice panic calls trace turn,
          BreaksOff (after.perform choice (.releaseOne name)) panic calls trace turn →
            turn.control = .panicked panic ∧ ∃ token left, .releasingOne token ∈
                (after.perform choice (.releaseOne name)).trace ∧
              turn.machine.registries.get? name = some left ∧
              registry.Released (tokens ++ [token]) (called ++ calls) left ∧
              Usable name turn.machine left) ∧
    (∀ choice calls trace turn,
      Advances (machine.perform choice (.releaseAll name)) calls trace turn →
        (calls.length < registry.size ∧ ∃ waker, turn.control = .wake waker) ∨
          calls.length = registry.size ∧ turn.control = .done (.released registry.size)) ∧
    ∀ choice panic calls trace turn,
      BreaksOff (machine.perform choice (.releaseAll name)) panic calls trace turn →
        turn.control = .panicked panic ∧
          turn.machine.registries.get? name = some registry.emptied := by
  refine ⟨fun tokens called after steps => ?_, ?_, ?_⟩
  · obtain ⟨rest, there, released⟩ := steps.released found
    refine ⟨rest, there, released, usable there, ?_, steps.asAll found, ?_⟩
    · intro early choice
      have sizes := released.size
      exact exists_releases there (by omega) choice
    · intro choice panic calls trace turn breaks
      obtain ⟨broken, entry, stays, told, rfl, left⟩ := releaseOne_broken there breaks
      refine ⟨broken, entry.1, _, ?_, left, released.take stays, usable left⟩
      rw [told]
      exact List.mem_cons_self
  · intro choice calls trace turn advances
    exact releaseAll_counts found advances
  · intro choice panic calls trace turn breaks
    obtain ⟨broken, -, -, left⟩ := releaseAll_broken found breaks
    exact ⟨broken, left⟩

end

/-- Three members are added to a registry. -/
def trioMoves : List (Move Pool.TaskId Nat Nat) :=
  [.perform 0 (.makeRegistry 0 none), .perform 0 (.add 0 ⟨4⟩), .perform 0 (.add 0 ⟨5⟩),
    .perform 0 (.add 0 ⟨6⟩)]

/-- The second member is released first, then the third. -/
def trioReleases : List (Move Pool.TaskId Nat Nat) :=
  [.perform 1 (.releaseOne 0), .resume .ready 0, .perform 1 (.releaseOne 0), .resume .ready 0,
    .perform 0 (.releaseOne 0), .resume .ready 0]

/-- The machine after some of the releases. -/
def trio (moves : Nat) : Machine Pool.TaskId Nat Nat :=
  (follow (trioMoves ++ trioReleases.take moves)).2

/-- The waker of the third member breaks off if it is called second; the first member then
stays. -/
theorem one_by_one_agrees_with_all_of_three :
    ∃ registry, (trio 0).registries.get? 0 = some registry ∧ registry.size = 3 ∧
      AsAll 0 (trio 0) registry [⟨1⟩, ⟨2⟩, ⟨0⟩] [⟨5⟩, ⟨6⟩, ⟨4⟩] (trio 6) ∧
      ∃ (broken : Turn Pool.TaskId Nat Nat) (left : Registry Pool.TaskId),
        broken.control = .panicked (.raised "gone") ∧
        broken.machine.registries.get? 0 = some left ∧
        registry.Released [⟨1⟩, ⟨2⟩] [⟨5⟩, ⟨6⟩] left ∧ Usable 0 broken.machine left := by
  have one : Advances ((trio 0).perform 1 (.releaseOne 0)) [⟨5⟩] _ ((trio 1).resume .ready 0) :=
    .back .start rfl .refl rfl .ready nofun 0
  have two : Advances ((trio 2).perform 1 (.releaseOne 0)) [⟨6⟩] _ ((trio 3).resume .ready 0) :=
    .back .start rfl .refl rfl .ready nofun 0
  have three : Advances ((trio 4).perform 0 (.releaseOne 0)) [⟨4⟩] _ ((trio 5).resume .ready 0) :=
    .back .start rfl .refl rfl .ready nofun 0
  have broken : BreaksOff ((trio 2).perform 1 (.releaseOne 0)) (.raised "gone") [⟨6⟩] _
      ((trio 3).resume (.panicked (.raised "gone")) 0) := .breaks .start rfl .refl rfl 0
  have first : OneByOne 0 (trio 0) [⟨1⟩] [⟨5⟩] (trio 2) := .next .none 1 one rfl
  have second : OneByOne 0 (trio 0) [⟨1⟩, ⟨2⟩] [⟨5⟩, ⟨6⟩] (trio 4) := .next first 1 two rfl
  have third : OneByOne 0 (trio 0) [⟨1⟩, ⟨2⟩, ⟨0⟩] [⟨5⟩, ⟨6⟩, ⟨4⟩] (trio 6) :=
    .next second 0 three rfl
  have found : ∃ registry, (trio 0).registries.get? 0 = some registry ∧ registry.size = 3 :=
    ⟨_, rfl, rfl⟩
  obtain ⟨registry, found, size⟩ := found
  obtain ⟨steps, -⟩ := one_by_one_agrees_with_all found
  obtain ⟨-, -, -, -, -, all, -⟩ := steps _ _ _ third
  obtain ⟨-, -, -, -, -, -, breaking⟩ := steps _ _ _ first
  obtain ⟨ends, token, left, told, there, released, usable⟩ := breaking _ _ _ _ _ broken
  change _ ∈ [Occurrence.releasingOne ⟨2⟩, .woken none ⟨2⟩ (⟨6⟩ : Pool.TaskId)] at told
  obtain rfl : token = ⟨2⟩ := by simpa using told
  exact ⟨registry, found, size, all size.symm, _, left, ends, there, released, usable⟩

end Machine

end Latch
