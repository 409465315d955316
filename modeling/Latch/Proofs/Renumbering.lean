import Latch.Proofs.Ownership

/-!
# Renumbering

If one wait less registers with an event, the event hands out one token less, and later tokens move
up by one. Two runs that differ in such a wait are told apart by nothing but that token: one is the
other with the token left out and the tokens behind it renumbered, in the same order. So it is until
the tokens begin to repeat.
-/

set_option autoImplicit false

namespace Latch

variable {ω σ ν : Type}

/-! ## Tokens -/

/-- The token that takes the place of a given one if the hidden one is not handed out. -/
def Token.skip (hidden : Option Token) (token : Token) : Token :=
  match hidden with
  | none => token
  | some gap => if gap.number < token.number then ⟨token.number - 1⟩ else token

namespace Token

variable {hidden : Option Token} {token other : Token}

theorem number_inj : token.number = other.number ↔ token = other := by
  cases token
  cases other
  exact ⟨congrArg mk, mk.inj⟩

theorem skip_of_le {gap : Token} (early : token.number ≤ gap.number) :
    token.skip (some gap) = token :=
  if_neg (UInt64.not_lt.mpr early)

theorem toNat_skip (gap token : Token) :
    (token.skip (some gap)).number.toNat =
      if gap.number.toNat < token.number.toNat then token.number.toNat - 1
      else token.number.toNat := by
  simp only [skip, UInt64.lt_iff_toNat_lt]
  split
  · next later =>
      have positive : (1 : UInt64) ≤ token.number :=
        UInt64.le_iff_toNat_le.mpr (Nat.lt_of_le_of_lt (Nat.zero_le _) later)
      exact UInt64.toNat_sub_of_le _ _ positive
  · rfl

theorem skip_lt (shown : hidden ≠ some token) (alsoShown : hidden ≠ some other)
    (earlier : token.number < other.number) :
    (token.skip hidden).number < (other.skip hidden).number := by
  cases hidden with
  | none => exact earlier
  | some gap =>
      have first : gap.number.toNat ≠ token.number.toNat :=
        fun same => shown (congrArg some (number_inj.mp (UInt64.toNat_inj.mp same)))
      have second : gap.number.toNat ≠ other.number.toNat :=
        fun same => alsoShown (congrArg some (number_inj.mp (UInt64.toNat_inj.mp same)))
      rw [UInt64.lt_iff_toNat_lt] at earlier ⊢
      rw [toNat_skip, toNat_skip]
      split <;> split <;> omega

theorem skip_inj (shown : hidden ≠ some token) (alsoShown : hidden ≠ some other) :
    token.skip hidden = other.skip hidden ↔ token = other := by
  constructor
  · intro same
    rcases Nat.lt_trichotomy token.number.toNat other.number.toNat with earlier | equal | later
    · have moved := skip_lt shown alsoShown (UInt64.lt_iff_toNat_lt.mpr earlier)
      rw [same] at moved
      exact absurd moved (UInt64.lt_irrefl _)
    · exact number_inj.mp (UInt64.toNat_inj.mp equal)
    · have moved := skip_lt alsoShown shown (UInt64.lt_iff_toNat_lt.mpr later)
      rw [same] at moved
      exact absurd moved (UInt64.lt_irrefl _)
  · rintro rfl
    rfl

end Token

/-! ## Entries -/

namespace Registry

/-- The entries without the hidden one, in their order. -/
def shown (hidden : Option Token) (entries : List (Token × ω)) : List (Token × ω) :=
  (entries.filter fun entry => hidden ≠ some entry.1).map fun entry =>
    (entry.1.skip hidden, entry.2)

section

variable {hidden : Option Token} {token : Token}

theorem shown_cons_hidden (entry : Token × ω) (same : hidden = some entry.1)
    (entries : List (Token × ω)) : shown hidden (entry :: entries) = shown hidden entries := by
  simp [shown, same]

theorem shown_cons {entry : Token × ω} (clear : hidden ≠ some entry.1)
    (entries : List (Token × ω)) :
    shown hidden (entry :: entries) = (entry.1.skip hidden, entry.2) :: shown hidden entries := by
  simp [shown, clear]

theorem find?_shown (clear : hidden ≠ some token) (entries : List (Token × ω)) :
    Table.find? (token.skip hidden) (shown hidden entries) = Table.find? token entries := by
  induction entries with
  | nil => rfl
  | cons entry rest ih =>
      by_cases same : hidden = some entry.1
      · have other : entry.1 ≠ token := by
          rintro rfl
          exact clear same
        rw [shown_cons_hidden entry same, ih, Table.find?, if_neg other]
      · rw [shown_cons same, Table.find?, Table.find?, ih]
        simp only [Token.skip_inj same clear]

theorem shown_replaceOrAppend (clear : hidden ≠ some token) (waker : ω)
    (entries : List (Token × ω)) :
    shown hidden (Table.replaceOrAppend token waker entries) =
      Table.replaceOrAppend (token.skip hidden) waker (shown hidden entries) := by
  induction entries with
  | nil => exact shown_cons clear []
  | cons entry rest ih =>
      by_cases same : hidden = some entry.1
      · have other : entry.1 ≠ token := by
          rintro rfl
          exact clear same
        rw [Table.replaceOrAppend, if_neg other, shown_cons_hidden entry same,
          shown_cons_hidden entry same, ih]
      · rw [shown_cons same, Table.replaceOrAppend, Table.replaceOrAppend]
        simp only [Token.skip_inj same clear]
        split
        · exact shown_cons clear rest
        · rw [shown_cons same, ih]

theorem shown_filter (clear : hidden ≠ some token) (entries : List (Token × ω)) :
    shown hidden (entries.filter fun entry => entry.1 ≠ token) =
      (shown hidden entries).filter fun entry => entry.1 ≠ token.skip hidden := by
  induction entries with
  | nil => rfl
  | cons entry rest ih =>
      by_cases same : hidden = some entry.1
      · have other : entry.1 ≠ token := by
          rintro rfl
          exact clear same
        rw [List.filter_cons_of_pos (by simpa using other), shown_cons_hidden entry same,
          shown_cons_hidden entry same, ih]
      · rw [shown_cons same, List.filter_cons, List.filter_cons]
        simp only [ne_eq, Token.skip_inj same clear]
        split
        · rw [shown_cons same, ih]
        · exact ih

/-- What happens to the hidden entry is not seen. -/
theorem shown_replaceOrAppend_hidden (waker : ω) (entries : List (Token × ω)) :
    shown (some token) (Table.replaceOrAppend token waker entries) =
      shown (some token) entries := by
  induction entries with
  | nil => exact shown_cons_hidden (token, waker) rfl []
  | cons entry rest ih =>
      rw [Table.replaceOrAppend]
      split
      · next same =>
          rw [shown_cons_hidden (token, waker) rfl,
            shown_cons_hidden entry (congrArg some same.symm)]
      · next other =>
          have clear : some token ≠ some entry.1 := fun same => other (Option.some.inj same).symm
          rw [shown_cons clear, shown_cons clear, ih]

theorem shown_filter_hidden (entries : List (Token × ω)) :
    shown (some token) (entries.filter fun entry => entry.1 ≠ token) =
      shown (some token) entries := by
  unfold shown
  rw [List.filter_filter]
  congr 1
  apply List.filter_congr
  intro entry _
  by_cases same : entry.1 = token
  · simp [same]
  · simp [same, Ne.symm same]

theorem shown_of_lt {entries : List (Token × ω)}
    (early : ∀ entry ∈ entries, entry.1.number < token.number) :
    shown (some token) entries = entries := by
  induction entries with
  | nil => rfl
  | cons entry rest ih =>
      have here := early entry List.mem_cons_self
      have clear : some token ≠ some entry.1 := by
        intro same
        rw [Option.some.inj same] at here
        exact UInt64.lt_irrefl _ here
      rw [shown_cons clear, Token.skip_of_le (UInt64.le_of_lt here),
        ih fun other member => early other (List.mem_cons_of_mem _ member)]

theorem shown_of_not_mem {entries : List (Token × ω)}
    (absent : ∀ entry ∈ entries, hidden ≠ some entry.1) :
    shown hidden entries = entries.map fun entry => (entry.1.skip hidden, entry.2) := by
  unfold shown
  rw [List.filter_eq_self.mpr]
  intro entry member
  exact decide_eq_true (absent entry member)

theorem shown_none (entries : List (Token × ω)) : shown none entries = entries := by
  rw [shown_of_not_mem fun entry _ same => by cases same]
  exact List.map_id' entries

theorem length_shown_hidden {entries : List (Token × ω)} (unique : (entries.map Prod.fst).Nodup)
    (member : token ∈ entries.map Prod.fst) :
    entries.length = (shown (some token) entries).length + 1 := by
  obtain ⟨waker, found⟩ := Option.isSome_iff_exists.mp (Table.find?_isSome_iff.mpr member)
  have perm := Table.values_perm_of_find? unique found
  have same := perm.length_eq
  rw [List.length_map, List.length_cons, List.length_map] at same
  rw [same, ← shown_filter_hidden, shown_of_not_mem, List.length_map]
  intro entry inside held
  have other := (List.mem_filter.mp inside).2
  simp [Option.some.inj held] at other

end

/-- A registry looks like another one without the hidden member. While tokens are handed out, the
hidden one has been, and the numbers differ by it. -/
structure Hides (hidden : Option Token) (open? : Bool) (registry other : Registry ω) : Prop where
  entries : other.entries = shown hidden registry.entries
  counted : open? = true → registry.issued = other.issued + (if hidden.isSome then 1 else 0)
  issued : open? = true → ∀ token, hidden = some token → token.number.toNat < registry.issued

namespace Hides

variable {hidden : Option Token} {open? : Bool} {registry other : Registry ω}

theorem get?_eq (hides : Hides hidden open? registry other) {token : Token}
    (clear : hidden ≠ some token) : other.get? (token.skip hidden) = registry.get? token := by
  have found := find?_shown clear registry.entries
  rwa [← hides.entries] at found

theorem contains_eq (hides : Hides hidden open? registry other) {token : Token}
    (clear : hidden ≠ some token) :
    other.contains (token.skip hidden) = registry.contains token :=
  congrArg Option.isSome (hides.get?_eq clear)

theorem next_clear (hides : Hides hidden true registry other)
    (few : registry.issued < Token.limit) : hidden ≠ some registry.next := by
  intro same
  have early := hides.issued rfl _ same
  rw [toNat_next few] at early
  exact Nat.lt_irrefl _ early

theorem next_eq (hides : Hides hidden true registry other) (few : registry.issued < Token.limit) :
    registry.next.skip hidden = other.next := by
  have counted := hides.counted rfl
  cases hidden with
  | none =>
      change registry.next = other.next
      rw [registry.counted, other.counted]
      exact congrArg Token.nth counted
  | some gap =>
      have issued := hides.issued rfl gap rfl
      simp only [Option.isSome_some, if_true] at counted
      have fewer : other.issued < Token.limit := by omega
      apply Token.number_inj.mp
      apply UInt64.toNat_inj.mp
      rw [Token.toNat_skip, toNat_next few, toNat_next fewer, if_pos issued]
      exact Nat.sub_eq_of_eq_add counted

theorem insert (hides : Hides hidden open? registry other) {token : Token}
    (clear : hidden ≠ some token) (waker : ω) :
    (other.members.insert (token.skip hidden) waker).entries =
      shown hidden (registry.members.insert token waker).entries := by
  have moved := shown_replaceOrAppend clear waker registry.entries
  rw [← hides.entries] at moved
  exact moved.symm

theorem add (hides : Hides hidden true registry other) (few : registry.issued < Token.limit)
    (waker : ω) : Hides hidden true (registry.add waker) (other.add waker) where
  entries := by
    have moved := hides.insert (hides.next_clear few) waker
    rw [hides.next_eq few] at moved
    exact moved
  counted _ := by
    have counted := hides.counted rfl
    simp only [Registry.add]
    omega
  issued _ token same := Nat.lt_succ_of_lt (hides.issued rfl token same)

theorem replace (hides : Hides hidden open? registry other) {token : Token}
    (clear : hidden ≠ some token) (waker : ω) :
    Hides hidden open? (registry.replace token waker)
      (other.replace (token.skip hidden) waker) := by
  have same : token.skip hidden ∈ other.members.keys ↔ token ∈ registry.members.keys := by
    rw [← Table.contains_iff, ← Table.contains_iff]
    exact Bool.eq_iff_iff.mp (hides.contains_eq clear)
  unfold Registry.replace
  by_cases present : token ∈ registry.members.keys
  · rw [dif_pos present, dif_pos (same.mpr present)]
    exact ⟨hides.insert clear waker, hides.counted, hides.issued⟩
  · rw [dif_neg present, dif_neg fun inside => present (same.mp inside)]
    exact hides

theorem remove (hides : Hides hidden open? registry other) {token : Token}
    (clear : hidden ≠ some token) :
    Hides hidden open? (registry.remove token) (other.remove (token.skip hidden)) where
  entries := by
    have moved := shown_filter clear registry.entries
    rw [← hides.entries] at moved
    exact moved.symm
  counted := hides.counted
  issued := hides.issued

/-- A wait that is registered, or polled again, gets its registration in both. -/
theorem enrol [Waker ω] (hides : Hides hidden true registry other) {token? : Option Token}
    (clear : ∀ own, token? = some own → hidden ≠ some own) {waker : ω} {token : Token}
    {enrolment : Enrolment} {after : Registry ω}
    (enrols : registry.enrol token? waker = (token, enrolment, after))
    (few : after.issued ≤ Token.limit) :
    hidden ≠ some token ∧ ∃ next,
      other.enrol (token?.map (Token.skip hidden)) waker =
          (token.skip hidden, enrolment, next) ∧
        Hides hidden true after next := by
  cases token? with
  | none =>
      cases enrols
      exact ⟨hides.next_clear few, _,
        by simp only [Option.map_none, Registry.enrol, hides.next_eq few], hides.add few waker⟩
  | some own =>
      have shown := clear own rfl
      have found := hides.get?_eq shown
      simp only [Registry.enrol, update, Option.map_some, found] at enrols ⊢
      cases stands : registry.get? own with
      | none =>
          simp only [stands] at enrols ⊢
          cases enrols
          exact ⟨hides.next_clear few, _, by rw [hides.next_eq few], hides.add few waker⟩
      | some stored =>
          simp only [stands] at enrols ⊢
          by_cases does : willWake stored waker = true
          · simp only [if_pos does] at enrols ⊢
            cases enrols
            exact ⟨shown, _, rfl, hides⟩
          · simp only [if_neg does] at enrols ⊢
            cases enrols
            exact ⟨shown, _, rfl, hides.replace shown waker⟩

/-! The hidden member itself is registered, polled again and removed behind the other registry's
back. -/

theorem add_hidden (hides : Hides none true registry other)
    (few : registry.issued < Token.limit) (waker : ω) :
    Hides (some registry.next) true (registry.add waker) other where
  entries := by
    have early : ∀ entry ∈ registry.entries, entry.1.number < registry.next.number := by
      intro entry member
      rw [UInt64.lt_iff_toNat_lt, toNat_next few]
      exact registry.fresh (Nat.le_of_lt few) entry.1 (List.mem_map_of_mem member)
    have hidden : shown (some registry.next) (registry.add waker).entries =
        shown (some registry.next) registry.entries :=
      shown_replaceOrAppend_hidden waker registry.entries
    rw [hidden, shown_of_lt early, hides.entries, shown_none]
  counted _ := congrArg (· + 1) (hides.counted rfl)
  issued _ token same := by
    cases same
    rw [toNat_next few]
    exact Nat.lt_succ_self _

theorem replace_hidden {token : Token} (hides : Hides (some token) open? registry other)
    (waker : ω) : Hides (some token) open? (registry.replace token waker) other := by
  unfold Registry.replace
  split
  · exact ⟨hides.entries.trans (shown_replaceOrAppend_hidden waker registry.entries).symm,
      hides.counted, hides.issued⟩
  · exact hides

theorem remove_hidden {token : Token} (hides : Hides (some token) open? registry other) :
    Hides (some token) open? (registry.remove token) other where
  entries := hides.entries.trans (shown_filter_hidden registry.entries).symm
  counted := hides.counted
  issued := hides.issued

/-- The hidden wait keeps the hidden token, or gets the next one. -/
theorem enrol_hidden [Waker ω] (hides : Hides hidden true registry other)
    (member : ∀ own, hidden = some own → own ∈ registry.members.keys) {waker : ω} {token : Token}
    {enrolment : Enrolment} {after : Registry ω}
    (enrols : registry.enrol hidden waker = (token, enrolment, after))
    (few : after.issued ≤ Token.limit) :
    Hides (some token) true after other ∧
      (hidden = none ∧ token = registry.next ∧ registry.issued < Token.limit ∨
        hidden = some token) := by
  cases hidden with
  | none =>
      cases enrols
      exact ⟨hides.add_hidden few waker, .inl ⟨rfl, rfl, few⟩⟩
  | some own =>
      obtain ⟨stored, found⟩ :=
        (registry.contains_iff own).mp (Table.contains_iff.mpr (member own rfl))
      simp only [Registry.enrol, update, found] at enrols
      by_cases does : willWake stored waker = true
      · simp only [if_pos does] at enrols
        cases enrols
        exact ⟨hides, .inr rfl⟩
      · simp only [if_neg does] at enrols
        cases enrols
        exact ⟨hides.replace_hidden waker, .inr rfl⟩

/-! What can be seen of the sizes and the wakers. -/

theorem entries_of_not_mem (hides : Hides hidden open? registry other)
    (absent : ∀ token, hidden = some token → token ∉ registry.members.keys) :
    other.entries = registry.entries.map fun entry => (entry.1.skip hidden, entry.2) := by
  rw [hides.entries]
  apply shown_of_not_mem
  intro entry member same
  exact absent entry.1 same (List.mem_map_of_mem member)

theorem values_of_not_mem (hides : Hides hidden open? registry other)
    (absent : ∀ token, hidden = some token → token ∉ registry.members.keys) :
    other.members.values = registry.members.values := by
  have same := congrArg (List.map Prod.snd) (hides.entries_of_not_mem absent)
  rw [List.map_map] at same
  exact same

theorem size_of_not_mem (hides : Hides hidden open? registry other)
    (absent : ∀ token, hidden = some token → token ∉ registry.members.keys) :
    other.size = registry.size := by
  have same := congrArg List.length (hides.entries_of_not_mem absent)
  rw [List.length_map] at same
  exact same

theorem size_of_mem {token : Token} (hides : Hides (some token) open? registry other)
    (member : token ∈ registry.members.keys) : registry.size = other.size + 1 := by
  have longer := length_shown_hidden registry.members.keys_nodup member
  rw [show registry.members.entries = registry.entries from rfl, ← hides.entries] at longer
  exact longer

end Hides

end Registry

end Latch
