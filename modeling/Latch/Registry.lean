import Latch.Panic
import Latch.Table
import Latch.Waker

/-!
# Registries of waiters

A registry keeps one waker per waiter under a token that it hands out itself. Tokens are words of 64
bits that count up from zero, so that one that was given back is not handed out again until all of
them have been; after that a new member takes the place of one that holds its token. Which member
leaves first is open: `takeOne?` takes the member that the caller's choice points at.
-/

set_option autoImplicit false

namespace Latch

/-- Names one membership of a registry. -/
structure Token where
  number : UInt64
  deriving DecidableEq, Repr

namespace Token

/-- How many tokens there are. -/
def limit : Nat := UInt64.size

/-- The token that is handed out after the given number of others. -/
def nth (count : Nat) : Token := ⟨UInt64.ofNat count⟩

theorem nth_succ (count : Nat) : nth (count + 1) = ⟨(nth count).number + 1⟩ :=
  congrArg mk (UInt64.ofNat_add count 1)

theorem toNat_nth {count : Nat} (few : count < limit) : (nth count).number.toNat = count :=
  UInt64.toNat_ofNat_of_lt' few

/-- Tokens repeat only after all of them have been handed out. -/
theorem nth_inj {first second : Nat} (few : first < limit) (fewer : second < limit)
    (same : nth first = nth second) : first = second := by
  rw [← toNat_nth few, same, toNat_nth fewer]

-- The first token comes again right after the last one.
example : nth limit = nth 0 := by decide

end Token

/-- The wakers of the current members, and the token that the next member gets. -/
structure Registry (ω : Type) where
  members : Table Token ω
  next : Token
  /-- How many tokens were handed out, for the record: a registry does nothing by it. -/
  issued : Nat
  counted : next = .nth issued
  fresh : issued ≤ Token.limit → ∀ token ∈ members.keys, token.number.toNat < issued

namespace Registry

variable {ω : Type}

/-- A registry that never had a member. -/
protected def empty : Registry ω where
  members := ∅
  next := ⟨0⟩
  issued := 0
  counted := rfl
  fresh := by intro _ token member; cases member

instance : EmptyCollection (Registry ω) := ⟨Registry.empty⟩

instance : Inhabited (Registry ω) := ⟨Registry.empty⟩

/-- The least number of members for which no registry has room. There is a power of two of slots, at
most seven in eight of which are used; each takes 24 bytes and one to tell whether it is used, and
all of them take less than `2 ^ 63` bytes. So there are `2 ^ 58` slots at most. -/
def capacityLimit : Nat := 7 * Nat.pow 2 55 + 1

/-- An empty registry with room set aside for some members. -/
def withCapacity (capacity : Nat) : Except Panic (Registry ω) :=
  if capacity < capacityLimit then .ok ∅ else .error .capacityOverflow

def size (registry : Registry ω) : Nat := registry.members.size

def isEmpty (registry : Registry ω) : Bool := registry.members.isEmpty

def get? (registry : Registry ω) (token : Token) : Option ω := registry.members.get? token

def contains (registry : Registry ω) (token : Token) : Bool := registry.members.contains token

theorem toNat_next {registry : Registry ω} (few : registry.issued < Token.limit) :
    registry.next.number.toNat = registry.issued := by
  rw [registry.counted, Token.toNat_nth few]

/-- Makes a waker a member, under the token `registry.next`. The number of the next token wraps
around. -/
def add (registry : Registry ω) (waker : ω) : Registry ω where
  members := registry.members.insert registry.next waker
  next := ⟨registry.next.number + 1⟩
  issued := registry.issued + 1
  counted := by rw [registry.counted, Token.nth_succ]
  fresh := by
    intro few token member
    rw [Table.keys_insert] at member
    split at member
    · exact Nat.lt_succ_of_lt (registry.fresh (Nat.le_of_lt few) token member)
    · rcases List.mem_append.mp member with old | new
      · exact Nat.lt_succ_of_lt (registry.fresh (Nat.le_of_lt few) token old)
      · rw [List.mem_singleton.mp new, toNat_next few]
        exact Nat.lt_succ_self _

/-- Stores another waker for a present member; a stranger's token changes nothing. -/
def replace (registry : Registry ω) (token : Token) (waker : ω) : Registry ω :=
  if present : token ∈ registry.members.keys then
    { members := registry.members.insert token waker
      next := registry.next
      issued := registry.issued
      counted := registry.counted
      fresh := by
        intro few other member
        rw [Table.keys_insert, if_pos present] at member
        exact registry.fresh few other member }
  else registry

/-- What an update found. -/
inductive Refresh where
  /-- The token is not a member's. -/
  | absent
  /-- The stored waker wakes the same task and stays. -/
  | kept
  /-- The stored waker gave way to a copy of the new one. -/
  | replaced
  deriving DecidableEq, Repr

/-- Makes a member wake the task of the given waker. The stored waker stays if it does so
already. -/
def update [Waker ω] (registry : Registry ω) (token : Token) (waker : ω) :
    Refresh × Registry ω :=
  match registry.get? token with
  | none => (.absent, registry)
  | some stored =>
      if willWake stored waker then (.kept, registry)
      else (.replaced, registry.replace token waker)

/-- Ends a membership without waking anyone. -/
def remove (registry : Registry ω) (token : Token) : Registry ω where
  members := registry.members.erase token
  next := registry.next
  issued := registry.issued
  counted := registry.counted
  fresh := by
    intro few other member
    exact registry.fresh few other ((Table.mem_keys_erase _ _ _).mp member).2

/-- The registry without its members; its tokens go on where they were. -/
def emptied (registry : Registry ω) : Registry ω where
  members := ∅
  next := registry.next
  issued := registry.issued
  counted := registry.counted
  fresh := by intro _ token member; cases member

/-- All members, each with its waker. -/
def entries (registry : Registry ω) : List (Token × ω) := registry.members.entries

/-- Takes out the member that a choice points at, counted modulo the number of members. -/
def takeOne? (registry : Registry ω) (choice : Nat) : Option ((Token × ω) × Registry ω) :=
  registry.entries[choice % registry.size]?.map fun entry => (entry, registry.remove entry.1)

theorem next_not_mem {registry : Registry ω} (few : registry.issued < Token.limit) :
    registry.next ∉ registry.members.keys := by
  intro member
  have old := registry.fresh (Nat.le_of_lt few) _ member
  rw [toNat_next few] at old
  exact Nat.lt_irrefl _ old

theorem get?_add (registry : Registry ω) (waker : ω) (token : Token) :
    (registry.add waker).get? token =
      if token = registry.next then some waker else registry.get? token :=
  Table.get?_insert _ _ _ _

theorem get?_remove (registry : Registry ω) (token other : Token) :
    (registry.remove token).get? other =
      if other = token then none else registry.get? other :=
  Table.get?_erase _ _ _

theorem contains_iff (registry : Registry ω) (token : Token) :
    registry.contains token = true ↔ ∃ waker, registry.get? token = some waker :=
  Option.isSome_iff_exists

@[simp]
theorem get?_emptied (registry : Registry ω) (token : Token) :
    registry.emptied.get? token = none := rfl

theorem get?_next {registry : Registry ω} (few : registry.issued < Token.limit) :
    registry.get? registry.next = none :=
  Table.get?_eq_none (next_not_mem few)

/-- Replacing a waker changes what is stored for a present member, and nothing else. -/
theorem get?_replace (registry : Registry ω) (token other : Token) (waker : ω) :
    (registry.replace token waker).get? other =
      if other = token ∧ registry.contains token then some waker else registry.get? other := by
  unfold replace
  split
  · next present =>
      have inside : registry.contains token = true := Table.contains_iff.mpr present
      simp only [get?, Table.get?_insert, inside, and_true]
  · next absent =>
      have outside : registry.contains token = false := by
        rw [Bool.eq_false_iff]
        exact fun inside => absent (Table.contains_iff.mp inside)
      simp [outside]

/-- An update tells whether the token was a member's. -/
theorem update_absent_iff [Waker ω] (registry : Registry ω) (token : Token) (waker : ω) :
    (registry.update token waker).1 = .absent ↔ registry.contains token = false := by
  unfold update contains Table.contains get?
  cases registry.members.get? token with
  | none => simp
  | some stored => simp only []; split <;> simp

/-- After an update a member's waker wakes the task of the given one. -/
theorem willWake_of_update [Waker ω] [LawfulWaker ω] {registry : Registry ω} {token : Token}
    {waker : ω} (member : registry.contains token = true) :
    ∃ stored, (registry.update token waker).2.get? token = some stored ∧
      willWake stored waker = true := by
  obtain ⟨old, found⟩ := (registry.contains_iff token).mp member
  unfold update
  rw [found]
  by_cases same : willWake old waker = true
  · exact ⟨old, by simp [same, found], same⟩
  · exact ⟨waker, by simp [same, get?_replace, member], LawfulWaker.refl waker⟩

end Registry

end Latch
