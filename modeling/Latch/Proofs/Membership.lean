import Latch.Proofs.Breaking

/-!
# Membership

What a registry holds can be told from what was done with it. Tokens are handed out in order; a
token is a member's from the moment it is handed out until it is removed or released, and its waker
wakes the task that was last given for it. A release calls the wakers of the members that it takes.
-/

set_option autoImplicit false

namespace Latch

variable {ω σ ν : Type}

/-- What was done with a registry, and what it answered. -/
inductive Deed (ω : Type) where
  | added (token : Token) (waker : ω)
  | updated (token : Token) (waker : ω) (found : Bool)
  | removed (token : Token) (found : Bool)
  | releasedOne (token? : Option Token)
  | releasedAll

namespace Deed

/-- The token that was handed out. -/
def issued? : Deed ω → Option Token
  | added token _ => some token
  | updated .. | removed .. | releasedOne _ | releasedAll => none

/-- The waker that was given for a token. -/
def given? (token : Token) : Deed ω → Option ω
  | added other waker | updated other waker _ => if other = token then some waker else none
  | removed .. | releasedOne _ | releasedAll => none

/-- Whether a token is no member's any more. -/
def ends (token : Token) : Deed ω → Bool
  | removed other found => found ∧ other = token
  | releasedOne token? => token? = some token
  | releasedAll => true
  | added .. | updated .. => false

end Deed

/-- A token was handed out, and neither removed nor released since. -/
def IsMember (deeds : List (Deed ω)) (token : Token) : Prop :=
  ∃ before waker after, deeds = before ++ .added token waker :: after ∧
    ∀ deed ∈ after, deed.ends token = false

/-- The waker that was last given for a token. -/
def lastGiven? (deeds : List (Deed ω)) (token : Token) : Option ω :=
  (deeds.filterMap (Deed.given? token)).getLast?

theorem isMember_concat {deeds : List (Deed ω)} {deed : Deed ω} {token : Token} :
    IsMember (deeds ++ [deed]) token ↔
      (∃ waker, deed = .added token waker) ∨ IsMember deeds token ∧ deed.ends token = false := by
  constructor
  · rintro ⟨before, waker, after, split, lasting⟩
    rcases List.eq_nil_or_concat after with rfl | ⟨early, last, rfl⟩
    · obtain ⟨-, same⟩ := List.append_inj' split rfl
      exact .inl ⟨waker, List.singleton_inj.mp same⟩
    · rw [List.concat_eq_append, ← List.cons_append, ← List.append_assoc] at split
      obtain ⟨same, here⟩ := List.append_inj' split rfl
      rw [List.singleton_inj] at here
      subst here
      rw [List.concat_eq_append] at lasting
      exact .inr ⟨⟨before, waker, early, same, fun deed member =>
        lasting deed (List.mem_append_left _ member)⟩,
        lasting deed (List.mem_append_right _ (List.mem_singleton_self _))⟩
  · rintro (⟨waker, rfl⟩ | ⟨⟨before, waker, after, rfl, lasting⟩, stays⟩)
    · exact ⟨deeds, waker, [], rfl, nofun⟩
    · refine ⟨before, waker, after ++ [deed], by simp, ?_⟩
      intro other member
      rcases List.mem_append.mp member with early | last
      · exact lasting other early
      · rw [List.mem_singleton.mp last]
        exact stays

theorem lastGiven?_concat (deeds : List (Deed ω)) (deed : Deed ω) (token : Token) :
    lastGiven? (deeds ++ [deed]) token = (deed.given? token).or (lastGiven? deeds token) := by
  rw [lastGiven?, List.filterMap_append, List.filterMap_cons, List.filterMap_nil]
  cases deed.given? token with
  | none => simp [lastGiven?]
  | some waker => simp

/-! ## Registries -/

namespace Registry

theorem contains_update [Waker ω] (registry : Registry ω) (token other : Token) (waker : ω) :
    (registry.update token waker).2.contains other = registry.contains other := by
  rw [Bool.eq_iff_iff, contains, contains, Table.contains_iff, Table.contains_iff, keys_update]

/-- What a registry holds agrees with what was done with it. -/
structure Reflects [Waker ω] (registry : Registry ω) (deeds : List (Deed ω)) : Prop where
  issued : deeds.filterMap Deed.issued? = (List.range registry.issued).map Token.nth
  members : ∀ token, registry.contains token = true ↔ IsMember deeds token
  wakers : ∀ token stored, registry.get? token = some stored →
    ∃ given, lastGiven? deeds token = some given ∧ willWake stored given = true

namespace Reflects

variable [Waker ω] {registry : Registry ω} {deeds : List (Deed ω)}

theorem empty : (∅ : Registry ω).Reflects [] where
  issued := rfl
  members token := by
    constructor
    · exact nofun
    · rintro ⟨before, waker, after, split, -⟩
      simp at split
  wakers := nofun

theorem add [LawfulWaker ω] (reflects : registry.Reflects deeds) (waker : ω) :
    (registry.add waker).Reflects (deeds ++ [.added registry.next waker]) where
  issued := by
    rw [List.filterMap_append, reflects.issued, registry.counted, Registry.add, List.range_succ,
      List.map_append]
    rfl
  members token := by
    rw [isMember_concat, ← reflects.members, contains_iff, contains_iff, get?_add]
    split
    · next same => simp [same]
    · next different =>
        have other : ∀ given : ω, Deed.added registry.next waker ≠ .added token given := by
          rintro given same
          exact different (Deed.added.inj same).1.symm
        simp [other, Deed.ends]
  wakers token stored found := by
    rw [get?_add] at found
    rw [lastGiven?_concat]
    split at found
    · next same =>
        cases found
        exact ⟨waker, by simp [Deed.given?, same], LawfulWaker.refl waker⟩
    · next different =>
        rw [Deed.given?, if_neg (Ne.symm different)]
        exact reflects.wakers token stored found

theorem update [LawfulWaker ω] (reflects : registry.Reflects deeds) (token : Token) (waker : ω)
    (found : Bool) :
    (registry.update token waker).2.Reflects (deeds ++ [.updated token waker found]) where
  issued := by
    rw [List.filterMap_append, issued_update, reflects.issued]
    exact List.append_nil _
  members other := by
    rw [isMember_concat, ← reflects.members, contains_update]
    simp [Deed.ends]
  wakers other stored here := by
    rw [lastGiven?_concat, Deed.given?]
    by_cases same : other = token
    · subst same
      have member : registry.contains other = true := by
        rw [← contains_update, contains_iff]
        exact ⟨stored, here⟩
      obtain ⟨kept, there, does⟩ : ∃ kept, (registry.update other waker).2.get? other = some kept ∧
          willWake kept waker = true := willWake_of_update member
      cases here.symm.trans there
      exact ⟨waker, by simp, does⟩
    · rw [get?_update_of_ne registry waker same] at here
      rw [if_neg (Ne.symm same)]
      exact reflects.wakers other stored here

/-- Ends some memberships and leaves the others as they are. -/
theorem leave {later : Registry ω} (reflects : registry.Reflects deeds) {deed : Deed ω}
    (silent : deed.issued? = none) (gives : ∀ token, deed.given? token = none)
    (count : later.issued = registry.issued)
    (left : ∀ token, later.get? token = if deed.ends token then none else registry.get? token) :
    later.Reflects (deeds ++ [deed]) where
  issued := by
    rw [List.filterMap_append, List.filterMap_cons_none silent, count, reflects.issued]
    exact List.append_nil _
  members token := by
    have added : ∀ waker, deed ≠ .added token waker := by
      rintro waker rfl
      cases silent
    rw [isMember_concat, ← reflects.members, contains_iff, contains_iff, left]
    cases deed.ends token <;> simp [added]
  wakers token stored found := by
    rw [lastGiven?_concat, gives]
    rw [left] at found
    split at found
    · cases found
    · exact reflects.wakers token stored found

theorem remove (reflects : registry.Reflects deeds) (token : Token) :
    (registry.remove token).Reflects (deeds ++ [.removed token (registry.contains token)]) := by
  refine reflects.leave rfl (fun _ => rfl) rfl ?_
  intro other
  rw [get?_remove]
  by_cases same : other = token
  · subst same
    cases member : registry.contains other with
    | true => simp [Deed.ends]
    | false =>
        have absent : registry.get? other = none :=
          Option.isNone_iff_eq_none.mp (Option.isSome_eq_false_iff.mp member)
        simp [absent]
  · simp [same, Ne.symm same, Deed.ends]

theorem take (reflects : registry.Reflects deeds) (token : Token) :
    (registry.remove token).Reflects (deeds ++ [.releasedOne (some token)]) := by
  refine reflects.leave rfl (fun _ => rfl) rfl ?_
  intro other
  rw [get?_remove]
  by_cases same : other = token
  · simp [same, Deed.ends]
  · simp [same, Ne.symm same, Deed.ends]

theorem takeNone (reflects : registry.Reflects deeds) :
    registry.Reflects (deeds ++ [.releasedOne none]) :=
  reflects.leave rfl (fun _ => rfl) rfl fun _ => rfl

theorem emptied (reflects : registry.Reflects deeds) :
    registry.emptied.Reflects (deeds ++ [.releasedAll]) :=
  reflects.leave rfl (fun _ => rfl) rfl fun _ => rfl

theorem size (reflects : registry.Reflects deeds) :
    ∃ members : List Token, members.Nodup ∧ (∀ token, token ∈ members ↔ IsMember deeds token) ∧
      registry.size = members.length := by
  refine ⟨registry.members.keys, registry.members.keys_nodup, ?_, (List.length_map Prod.fst).symm⟩
  intro token
  rw [← reflects.members]
  exact Table.contains_iff.symm

end Reflects

theorem update_of_not_contains [Waker ω] {registry : Registry ω} {token : Token} {waker : ω}
    (stranger : registry.contains token = false) :
    (registry.update token waker).2 = registry := by
  have absent : registry.get? token = none :=
    Option.isNone_iff_eq_none.mp (Option.isSome_eq_false_iff.mp stranger)
  rw [update, absent]

/-! ## Members that are taken -/

theorem entries_of_takeOne?_eq_none {registry : Registry ω} {choice : Nat}
    (none : registry.takeOne? choice = none) : registry.entries = [] := by
  rw [takeOne?, Option.map_eq_none_iff, List.getElem?_eq_none_iff] at none
  by_cases waiting : registry.size = 0
  · exact List.eq_nil_of_length_eq_zero waiting
  · exact absurd (Nat.mod_lt choice (Nat.pos_of_ne_zero waiting)) (Nat.not_lt.mpr none)

theorem takeOne?_spec {registry rest : Registry ω} {choice : Nat} {entry : Token × ω}
    (taken : registry.takeOne? choice = some (entry, rest)) :
    rest = registry.remove entry.1 ∧ registry.get? entry.1 = some entry.2 := by
  simp only [takeOne?, Option.map_eq_some_iff, Prod.mk.injEq] at taken
  obtain ⟨found, here, rfl, rfl⟩ := taken
  exact ⟨rfl, Table.get?_of_mem (List.mem_of_getElem? here)⟩

theorem contains_of_entries_eq_nil {registry : Registry ω} (none : registry.entries = [])
    (token : Token) : registry.contains token = false := by
  rw [contains, Table.contains, Table.get?]
  rw [entries] at none
  rw [none]
  rfl

end Registry

namespace Machine

/-! ## Releases -/

variable [Waker ω] [DecidableEq ν]

section

variable {machine : Machine ω σ ν} {name : ν} {registry : Registry ω} {choice : Nat}
  {called : List ω} {trace : List (Occurrence ω)} {turn start : Turn ω σ ν}

/-- A registry that releases one member calls its waker, and is back under its name when that came
back. -/
theorem Advances.releasedOne {token : Token} {waker : ω} {base : List (Call ω σ ν)}
    (advances : Advances start called trace turn) (wakes : start.control = .wake waker)
    (calls : start.machine.calls = .releasingOne name registry token :: base) :
    (called = [] ∧ turn = start) ∨
      called = [waker] ∧ turn.control = .done (.token (some token)) ∧
        turn.machine.registries.get? name = some registry := by
  induction advances with
  | start => exact .inl ⟨rfl, rfl⟩
  | @back called trace inner turn other after _ again _ returned response unbroken choice ih =>
      rcases ih with ⟨rfl, rfl⟩ | ⟨-, ends, -⟩
      · cases wakes.symm.trans again
        have suspended := returned.trans calls
        refine .inr ⟨rfl, ?_⟩
        cases response with
        | panicked panic => exact absurd rfl (unbroken panic)
        | ready | pending =>
            simp only [resume, suspended]
            exact ⟨trivial, Table.get?_insert_self _ _ _⟩
      · rw [ends] at again
        cases again

/-- How far a registry has come that releases all its members. -/
inductive Emptying (name : ν) (registry : Registry ω) (base : List (Call ω σ ν)) (called : List ω)
    (machine : Machine ω σ ν) (control : Control ω σ) : Prop
  | waking (before rest : List (Token × ω)) (entry : Token × ω)
      (all : (before ++ entry :: rest).Perm registry.entries) (names : called = before.map Prod.snd)
      (wakes : control = .wake entry.2)
      (calls : machine.calls = .releasingAll name registry.emptied registry.size rest :: base)
  | ended (all : called.Perm registry.members.values)
      (ends : control = .done (.released registry.size))
      (stored : machine.registries.get? name = some registry.emptied)

omit [Waker ω] in
theorem continueReleaseAll_emptying (name : ν) (choice : Nat) (machine : Machine ω σ ν)
    (before : List (Token × ω)) {remaining : List (Token × ω)}
    (all : (before ++ remaining).Perm registry.entries) :
    Emptying name registry machine.calls (before.map Prod.snd)
      (machine.continueReleaseAll name registry.emptied registry.size remaining choice).machine
      (machine.continueReleaseAll name registry.emptied registry.size remaining
        choice).control := by
  unfold continueReleaseAll
  split
  · next entry rest picked =>
      refine .waking before rest entry ?_ rfl rfl rfl
      exact ((perm_of_pick? picked).symm.append_left before).trans all
  · next picked =>
      rw [pick?_eq_none_iff.mp picked, List.append_nil] at all
      exact .ended (all.map Prod.snd) rfl (Table.get?_insert_self _ _ _)

theorem Advances.emptying {base : List (Call ω σ ν)} (advances : Advances start called trace turn)
    (first : Emptying name registry base [] start.machine start.control) :
    Emptying name registry base called turn.machine turn.control := by
  induction advances with
  | start => exact first
  | @back called trace inner turn other after _ wakes _ returned response unbroken choice ih =>
      cases ih with
      | waking before rest entry all names wakes' calls =>
          cases wakes.symm.trans wakes'
          have suspended := returned.trans calls
          have all : ((before ++ [entry]) ++ rest).Perm registry.entries := by
            rw [← List.append_cons]
            exact all
          have next := continueReleaseAll_emptying name choice { after with calls := base } _ all
          rw [List.map_append, ← names] at next
          cases response with
          | panicked panic => exact absurd rfl (unbroken panic)
          | ready | pending =>
              simp only [resume, suspended]
              exact next
      | ended _ ends _ =>
          rw [ends] at wakes
          cases wakes

theorem get?_makeRegistry {capacity? : Option Nat}
    (done : (machine.perform choice (.makeRegistry name capacity?)).control = .done .nothing) :
    (machine.perform choice (.makeRegistry name capacity?)).machine.registries.get? name =
      some ∅ := by
  cases capacity? with
  | none => exact Table.get?_insert_self _ _ _
  | some capacity =>
      simp only [perform, makeRegistry, Registry.withCapacity] at done ⊢
      by_cases room : capacity < Registry.capacityLimit
      · simp only [room, if_true]
        exact Table.get?_insert_self _ _ _
      · simp only [room, if_false] at done
        cases done

theorem perform_add (found : machine.registries.get? name = some registry) (choice : Nat)
    (waker : ω) :
    machine.perform choice (.add name waker) =
      { machine := machine.storeRegistry name (registry.add waker)
        control := .done (.token (some registry.next)) } := by
  simp only [perform, addMember, found]

theorem perform_update (found : machine.registries.get? name = some registry) (choice : Nat)
    (token : Token) (waker : ω) :
    (machine.perform choice (.update name token waker)).machine =
        machine.storeRegistry name (registry.update token waker).2 ∧
      (machine.perform choice (.update name token waker)).control =
        .done (.found (registry.contains token)) := by
  simp only [perform, updateMember, found]
  refine ⟨trivial, ?_⟩
  have absent := registry.update_absent_iff token waker
  cases member : registry.contains token <;> simp [absent, member]

theorem perform_remove (found : machine.registries.get? name = some registry) (choice : Nat)
    (token : Token) :
    machine.perform choice (.remove name token) =
      { machine := machine.storeRegistry name (registry.remove token)
        control := .done (.found (registry.contains token)) } := by
  simp only [perform, removeMember, found]

theorem Advances.uncalled (advances : Advances start called trace turn) {reply : Reply}
    (done : start.control = .done reply) : called = [] ∧ turn = start := by
  cases advances with
  | start => exact ⟨rfl, rfl⟩
  | back earlier wakes =>
      rw [earlier.of_done done, done] at wakes
      cases wakes

theorem releaseOne_spec (found : machine.registries.get? name = some registry) (choice : Nat) :
    (registry.entries = [] ∧
      machine.perform choice (.releaseOne name) = { machine, control := .done (.token none) }) ∨
    ∃ entry : Token × ω, registry.get? entry.1 = some entry.2 ∧
      machine.perform choice (.releaseOne name) =
        { machine := (machine.withoutRegistry name).push
            (.releasingOne name (registry.remove entry.1) entry.1)
          trace := [.releasingOne entry.1, .woken none entry.1 entry.2]
          control := .wake entry.2 } := by
  cases taken : registry.takeOne? choice with
  | none =>
      refine .inl ⟨Registry.entries_of_takeOne?_eq_none taken, ?_⟩
      simp only [perform, releaseOne, found, taken]
  | some result =>
      obtain ⟨entry, rest⟩ := result
      obtain ⟨rfl, stored⟩ := Registry.takeOne?_spec taken
      refine .inr ⟨entry, stored, ?_⟩
      simp only [perform, releaseOne, found, taken]

theorem releaseOne_over (found : machine.registries.get? name = some registry)
    (advances : Advances (machine.perform choice (.releaseOne name)) called trace turn)
    {reply : Reply} (done : turn.control = .done reply) :
    (registry.entries = [] ∧ reply = .token none ∧ called = [] ∧ turn.machine = machine) ∨
    ∃ entry : Token × ω, registry.get? entry.1 = some entry.2 ∧ reply = .token (some entry.1) ∧
      called = [entry.2] ∧
      turn.machine.registries.get? name = some (registry.remove entry.1) := by
  rcases releaseOne_spec found choice with ⟨none, same⟩ | ⟨entry, stored, same⟩
  · rw [same] at advances
    obtain ⟨silent, rfl⟩ := advances.uncalled rfl
    exact .inl ⟨none, (Control.done.inj done).symm, silent, rfl⟩
  · rw [same] at advances
    rcases advances.releasedOne rfl rfl with ⟨-, rfl⟩ | ⟨names, ends, kept⟩
    · cases done
    · exact .inr ⟨entry, stored, Control.done.inj (done.symm.trans ends), names, kept⟩

theorem releaseOne_broken {panic : Panic} (found : machine.registries.get? name = some registry)
    (breaks : BreaksOff (machine.perform choice (.releaseOne name)) panic called trace turn) :
    turn.control = .panicked panic ∧ ∃ entry : Token × ω, registry.get? entry.1 = some entry.2 ∧
      (machine.perform choice (.releaseOne name)).trace =
        [.releasingOne entry.1, .woken none entry.1 entry.2] ∧
      called = [entry.2] ∧
      turn.machine.registries.get? name = some (registry.remove entry.1) := by
  cases breaks with
  | breaks advances wakes _ returned pick =>
      rcases releaseOne_spec found choice with ⟨none, same⟩ | ⟨entry, stored, same⟩
      · rw [same] at advances
        rw [advances.of_done rfl] at wakes
        cases wakes
      · rw [same] at advances
        rcases advances.releasedOne rfl rfl with ⟨rfl, rfl⟩ | ⟨-, ends, -⟩
        · cases wakes
          simp only [resume, returned, push]
          refine ⟨trivial, entry, stored, by rw [same], rfl, Table.get?_insert_self _ _ _⟩
        · rw [ends] at wakes
          cases wakes

theorem releaseAll_emptying (found : machine.registries.get? name = some registry)
    (advances : Advances (machine.perform choice (.releaseAll name)) called trace turn) :
    Emptying name registry machine.calls called turn.machine turn.control := by
  refine advances.emptying ?_
  simp only [perform, releaseAll, found]
  exact continueReleaseAll_emptying name choice (machine.withoutRegistry name) [] (.refl _)

theorem releaseAll_over (found : machine.registries.get? name = some registry)
    (advances : Advances (machine.perform choice (.releaseAll name)) called trace turn)
    {reply : Reply} (done : turn.control = .done reply) :
    reply = .released registry.size ∧ called.Perm registry.members.values ∧
      turn.machine.registries.get? name = some registry.emptied := by
  cases releaseAll_emptying found advances with
  | waking _ _ _ _ _ wakes =>
      rw [wakes] at done
      cases done
  | ended all ends stored => exact ⟨Control.done.inj (done.symm.trans ends), all, stored⟩

theorem releaseAll_broken {panic : Panic} (found : machine.registries.get? name = some registry)
    (breaks : BreaksOff (machine.perform choice (.releaseAll name)) panic called trace turn) :
    turn.control = .panicked panic ∧ 0 < called.length ∧
      (∃ order : List ω, order.Perm registry.members.values ∧ called <+: order) ∧
      turn.machine.registries.get? name = some registry.emptied := by
  cases breaks with
  | breaks advances wakes _ returned pick =>
      cases releaseAll_emptying found advances with
      | waking before rest entry all names wakes' calls =>
          cases wakes.symm.trans wakes'
          have suspended := returned.trans calls
          simp only [resume, suspended]
          refine ⟨trivial, by simp, ⟨(before ++ entry :: rest).map Prod.snd, all.map _, ?_⟩,
            Table.get?_insert_self _ _ _⟩
          exact ⟨rest.map Prod.snd, by rw [names]; simp⟩
      | ended _ ends _ =>
          rw [ends] at wakes
          cases wakes

end

/-! ## The history of a registry -/

/-- What was done with the registry under a name since it was made. Its wakers may do what they like
while it releases them, and break off; other calls, and what they lead to, leave it alone. -/
inductive Chronicle (name : ν) : List (Deed ω) → Machine ω σ ν → Prop
  | made {machine : Machine ω σ ν} (choice : Nat) (capacity? : Option Nat)
      (done : (machine.perform choice (.makeRegistry name capacity?)).control = .done .nothing) :
      Chronicle name [] (machine.perform choice (.makeRegistry name capacity?)).machine
  | aside {deeds : List (Deed ω)} {machine : Machine ω σ ν}
      (chronicle : Chronicle name deeds machine) (next : Move ω σ ν)
      (alone : (machine.move next).machine.registries.get? name = machine.registries.get? name) :
      Chronicle name deeds (machine.move next).machine
  | added {deeds : List (Deed ω)} {machine : Machine ω σ ν}
      (chronicle : Chronicle name deeds machine) (choice : Nat) (token : Token) (waker : ω)
      (done : (machine.perform choice (.add name waker)).control = .done (.token (some token))) :
      Chronicle name (deeds ++ [.added token waker])
        (machine.perform choice (.add name waker)).machine
  | updated {deeds : List (Deed ω)} {machine : Machine ω σ ν}
      (chronicle : Chronicle name deeds machine) (choice : Nat) (token : Token) (waker : ω)
      (found : Bool)
      (done : (machine.perform choice (.update name token waker)).control = .done (.found found)) :
      Chronicle name (deeds ++ [.updated token waker found])
        (machine.perform choice (.update name token waker)).machine
  | removed {deeds : List (Deed ω)} {machine : Machine ω σ ν}
      (chronicle : Chronicle name deeds machine) (choice : Nat) (token : Token) (found : Bool)
      (done : (machine.perform choice (.remove name token)).control = .done (.found found)) :
      Chronicle name (deeds ++ [.removed token found])
        (machine.perform choice (.remove name token)).machine
  | releasedOne {deeds : List (Deed ω)} {machine : Machine ω σ ν}
      (chronicle : Chronicle name deeds machine) {choice : Nat} {called : List ω}
      {trace : List (Occurrence ω)} {turn : Turn ω σ ν}
      (advances : Advances (machine.perform choice (.releaseOne name)) called trace turn)
      (token? : Option Token) (done : turn.control = .done (.token token?)) :
      Chronicle name (deeds ++ [.releasedOne token?]) turn.machine
  | brokeOne {deeds : List (Deed ω)} {machine : Machine ω σ ν}
      (chronicle : Chronicle name deeds machine) {choice : Nat} {called : List ω}
      {trace : List (Occurrence ω)} {turn : Turn ω σ ν} {panic : Panic}
      (breaks : BreaksOff (machine.perform choice (.releaseOne name)) panic called trace turn)
      (token : Token)
      (told : .releasingOne token ∈ (machine.perform choice (.releaseOne name)).trace) :
      Chronicle name (deeds ++ [.releasedOne (some token)]) turn.machine
  | releasedAll {deeds : List (Deed ω)} {machine : Machine ω σ ν}
      (chronicle : Chronicle name deeds machine) {choice : Nat} {called : List ω}
      {trace : List (Occurrence ω)} {turn : Turn ω σ ν}
      (advances : Advances (machine.perform choice (.releaseAll name)) called trace turn)
      (count : Nat) (done : turn.control = .done (.released count)) :
      Chronicle name (deeds ++ [.releasedAll]) turn.machine
  | brokeAll {deeds : List (Deed ω)} {machine : Machine ω σ ν}
      (chronicle : Chronicle name deeds machine) {choice : Nat} {called : List ω}
      {trace : List (Occurrence ω)} {turn : Turn ω σ ν} {panic : Panic}
      (breaks : BreaksOff (machine.perform choice (.releaseAll name)) panic called trace turn) :
      Chronicle name (deeds ++ [.releasedAll]) turn.machine

theorem Chronicle.reflects [LawfulWaker ω] {name : ν} {deeds : List (Deed ω)}
    {machine : Machine ω σ ν} (chronicle : Chronicle name deeds machine) :
    ∃ registry, machine.registries.get? name = some registry ∧ registry.Reflects deeds := by
  induction chronicle with
  | made choice capacity? done => exact ⟨∅, get?_makeRegistry done, .empty⟩
  | aside _ next alone ih =>
      rw [alone]
      exact ih
  | added _ choice token waker done ih =>
      obtain ⟨registry, found, reflects⟩ := ih
      rw [perform_add found] at done ⊢
      cases done
      exact ⟨_, Table.get?_insert_self _ _ _, reflects.add waker⟩
  | updated _ choice token waker answer done ih =>
      obtain ⟨registry, found, reflects⟩ := ih
      rw [(perform_update found choice token waker).1]
      exact ⟨_, Table.get?_insert_self _ _ _, reflects.update token waker answer⟩
  | removed _ choice token answer done ih =>
      obtain ⟨registry, found, reflects⟩ := ih
      rw [perform_remove found] at done ⊢
      cases done
      exact ⟨_, Table.get?_insert_self _ _ _, reflects.remove token⟩
  | releasedOne _ advances token? done ih =>
      obtain ⟨registry, found, reflects⟩ := ih
      rcases releaseOne_over found advances done with ⟨-, same, -, rest⟩ | ⟨entry, -, same, -, kept⟩
      · cases same
        exact ⟨registry, by rw [rest, found], reflects.takeNone⟩
      · cases same
        exact ⟨_, kept, reflects.take entry.1⟩
  | brokeOne _ breaks token told ih =>
      obtain ⟨registry, found, reflects⟩ := ih
      obtain ⟨-, entry, -, trace, -, kept⟩ := releaseOne_broken found breaks
      have same : token = entry.1 := by
        rw [trace] at told
        simpa using told
      exact ⟨_, kept, same ▸ reflects.take entry.1⟩
  | releasedAll _ advances count done ih =>
      obtain ⟨registry, found, reflects⟩ := ih
      exact ⟨_, (releaseAll_over found advances done).2.2, reflects.emptied⟩
  | brokeAll _ breaks ih =>
      obtain ⟨registry, found, reflects⟩ := ih
      exact ⟨_, (releaseAll_broken found breaks).2.2.2, reflects.emptied⟩

omit [Waker ω] in
theorem storeRegistry_of_get? {machine : Machine ω σ ν} {name : ν} {registry : Registry ω}
    (found : machine.registries.get? name = some registry) :
    machine.storeRegistry name registry = machine := by
  simp only [storeRegistry, Table.insert_of_get? found]

/-- How a registry answers the next call, given what was done with it before, and which wakers it
calls. -/
structure Answers (name : ν) (machine : Machine ω σ ν) (registry : Registry ω)
    (deeds : List (Deed ω)) : Prop where
  add : ∀ choice waker, ∃ token : Token,
    (machine.perform choice (.add name waker)).control = .done (.token (some token)) ∧
    token = .nth (deeds.filterMap Deed.issued?).length ∧
    ((deeds.filterMap Deed.issued?).length < Token.limit →
      token.number.toNat = (deeds.filterMap Deed.issued?).length ∧
      token ∉ deeds.filterMap Deed.issued?)
  update : ∀ choice token waker, ∃ found,
    (machine.perform choice (.update name token waker)).control = .done (.found found) ∧
    (found = true ↔ IsMember deeds token) ∧
    (found = false → (machine.perform choice (.update name token waker)).machine = machine)
  remove : ∀ choice token, ∃ found,
    (machine.perform choice (.remove name token)).control = .done (.found found) ∧
    (found = true ↔ IsMember deeds token) ∧
    (found = false → (machine.perform choice (.remove name token)).machine = machine)
  releaseOne : ∀ choice called trace turn reply,
    Advances (machine.perform choice (.releaseOne name)) called trace turn →
    turn.control = .done reply →
      ((∀ token, ¬ IsMember deeds token) ∧ reply = .token none ∧ called = [] ∧
        turn.machine = machine) ∨
      ∃ token waker, IsMember deeds token ∧ registry.get? token = some waker ∧
        reply = .token (some token) ∧ called = [waker]
  brokenOne : ∀ choice panic called trace turn,
    BreaksOff (machine.perform choice (.releaseOne name)) panic called trace turn →
      turn.control = .panicked panic ∧
      ∃ token waker, IsMember deeds token ∧ registry.get? token = some waker ∧
        .releasingOne token ∈ (machine.perform choice (.releaseOne name)).trace ∧ called = [waker]
  releaseAll : ∀ choice called trace turn reply,
    Advances (machine.perform choice (.releaseAll name)) called trace turn →
    turn.control = .done reply →
      reply = .released registry.size ∧ called.Perm registry.members.values
  brokenAll : ∀ choice panic called trace turn,
    BreaksOff (machine.perform choice (.releaseAll name)) panic called trace turn →
      turn.control = .panicked panic ∧ 0 < called.length ∧
      ∃ order : List ω, order.Perm registry.members.values ∧ called <+: order

/-- Whatever was done with a registry, its members are those tokens that were handed out and neither
removed nor released since, and their wakers wake the tasks that were last given for them. Tokens
are handed out in order, and do not repeat before all of them have been handed out. A stranger's
token is refused, and changes nothing. A release calls the wakers of the members that it takes, each
once, and no others; if one of them breaks off, the rest are not called. -/
theorem registry_reflects_history [LawfulWaker ω] {name : ν} {deeds : List (Deed ω)}
    {machine : Machine ω σ ν} (chronicle : Chronicle name deeds machine) :
    ∃ registry, machine.registries.get? name = some registry ∧ registry.Reflects deeds ∧
      (∃ members : List Token, members.Nodup ∧
        (∀ token, token ∈ members ↔ IsMember deeds token) ∧ registry.size = members.length) ∧
      Answers name machine registry deeds := by
  obtain ⟨registry, found, reflects⟩ := chronicle.reflects
  have member : ∀ token waker, registry.get? token = some waker → IsMember deeds token := by
    intro token waker stored
    rw [← reflects.members, Registry.contains_iff]
    exact ⟨waker, stored⟩
  refine ⟨registry, found, reflects, reflects.size, ?_, ?_, ?_, ?_, ?_, ?_, ?_⟩
  · intro choice waker
    have count : (deeds.filterMap Deed.issued?).length = registry.issued := by
      rw [reflects.issued, List.length_map, List.length_range]
    rw [count]
    refine ⟨registry.next, by rw [perform_add found], registry.counted,
      fun few => ⟨Registry.toNat_next few, ?_⟩⟩
    rw [reflects.issued, registry.counted, List.mem_map]
    rintro ⟨earlier, before, same⟩
    have below := List.mem_range.mp before
    exact Nat.ne_of_lt below (Token.nth_inj (Nat.lt_trans below few) few same)
  · intro choice token waker
    obtain ⟨later, answer⟩ := perform_update found choice token waker
    refine ⟨registry.contains token, answer, reflects.members token, ?_⟩
    intro stranger
    rw [later, Registry.update_of_not_contains stranger, storeRegistry_of_get? found]
  · intro choice token
    refine ⟨registry.contains token, by rw [perform_remove found], reflects.members token, ?_⟩
    intro stranger
    rw [perform_remove found]
    simp only [Registry.remove_of_stranger stranger, storeRegistry_of_get? found]
  · intro choice called trace turn reply advances done
    rcases releaseOne_over found advances done with
      ⟨none, same, silent, kept⟩ | ⟨entry, stored, same, names, -⟩
    · refine .inl ⟨?_, same, silent, kept⟩
      intro token
      rw [← reflects.members, Registry.contains_of_entries_eq_nil none]
      exact nofun
    · exact .inr ⟨entry.1, entry.2, member _ _ stored, stored, same, names⟩
  · intro choice panic called trace turn breaks
    obtain ⟨broken, entry, stored, told, names, -⟩ := releaseOne_broken found breaks
    refine ⟨broken, entry.1, entry.2, member _ _ stored, stored, ?_, names⟩
    rw [told]
    exact List.mem_cons_self
  · intro choice called trace turn reply advances done
    obtain ⟨same, names, -⟩ := releaseAll_over found advances done
    exact ⟨same, names⟩
  · intro choice panic called trace turn breaks
    obtain ⟨broken, some, order, -⟩ := releaseAll_broken found breaks
    exact ⟨broken, some, order⟩

/-- Three members are added, and the second is removed; the third is updated. -/
def ledgerMoves : List (Move Pool.TaskId Nat Nat) :=
  [.perform 0 (.makeRegistry 0 none), .perform 0 (.add 0 ⟨4⟩), .perform 0 (.add 0 ⟨5⟩),
    .perform 0 (.add 0 ⟨6⟩), .perform 0 (.remove 0 ⟨1⟩), .perform 0 (.update 0 ⟨2⟩ ⟨9⟩)]

/-- The first member is released; its waker makes another registry and breaks off. -/
theorem registry_reflects_history_broken :
    ∃ (machine : Machine Pool.TaskId Nat Nat) (registry : Registry Pool.TaskId),
      machine.registries.get? 0 = some registry ∧ registry.size = 1 ∧
      registry.contains ⟨0⟩ = false ∧
      (∃ stored, registry.get? ⟨2⟩ = some stored ∧ willWake stored ⟨9⟩ = true) ∧
      (∃ token : Token, token.number = 3 ∧
        (machine.perform 0 (.add 0 ⟨7⟩)).control = .done (.token (some token))) ∧
      (machine.perform 0 (.remove 0 ⟨0⟩)).machine = machine := by
  have made : Chronicle 0 [] (Machine.perform ({} : Machine Pool.TaskId Nat Nat) 0
      (.makeRegistry 0 none)).machine := .made 0 none rfl
  have added := ((made.added 0 ⟨0⟩ ⟨4⟩ rfl).added 0 ⟨1⟩ ⟨5⟩ rfl).added 0 ⟨2⟩ ⟨6⟩ rfl
  have settled : Chronicle 0 _ (follow ledgerMoves).2 :=
    (added.removed 0 ⟨1⟩ true rfl).updated 0 ⟨2⟩ ⟨9⟩ true rfl
  have breaks : BreaksOff ((follow ledgerMoves).2.perform 0 (.releaseOne 0)) (.raised "gone")
      _ _ _ := .breaks .start rfl (.perform 0 (.makeRegistry 1 none) .refl) rfl 0
  have chronicle := settled.brokeOne breaks ⟨0⟩ (List.Mem.head _)
  obtain ⟨registry, found, reflects, -, answers⟩ := registry_reflects_history chronicle
  obtain rfl := Option.some.inj found
  obtain ⟨given, last, does⟩ := reflects.wakers ⟨2⟩ ⟨9⟩ rfl
  obtain ⟨token, answer, rfl, -⟩ := answers.add 0 ⟨7⟩
  obtain ⟨present, refusal, -, kept⟩ := answers.remove 0 ⟨0⟩
  cases last
  cases refusal
  exact ⟨_, _, rfl, by decide, by decide, ⟨_, rfl, does⟩, ⟨_, rfl, answer⟩, kept rfl⟩

end Machine

end Latch
