/-!
# Finite tables

Maps from keys to values that keep their keys in order of arrival. A key occurs once: inserting
under a present key replaces the value in place. The statements below give the value found after
each operation; the order of the entries is left to the operations themselves.
-/

set_option autoImplicit false

namespace Latch

/-- Values under distinct keys, in order of arrival. -/
structure Table (κ α : Type) where
  entries : List (κ × α)
  keys_nodup : (entries.map Prod.fst).Nodup

namespace Table

variable {κ α : Type}

protected def empty : Table κ α := ⟨[], List.nodup_nil⟩

instance : EmptyCollection (Table κ α) := ⟨Table.empty⟩

instance : Inhabited (Table κ α) := ⟨Table.empty⟩

def keys (table : Table κ α) : List κ := table.entries.map Prod.fst

def values (table : Table κ α) : List α := table.entries.map Prod.snd

def size (table : Table κ α) : Nat := table.entries.length

def isEmpty (table : Table κ α) : Bool := table.entries.isEmpty

variable [DecidableEq κ]

/-- The value that stands under a key in a list of entries; the first one, if there are
several. -/
def find? (key : κ) : List (κ × α) → Option α
  | [] => none
  | entry :: rest => if entry.1 = key then some entry.2 else find? key rest

def get? (table : Table κ α) (key : κ) : Option α := find? key table.entries

def contains (table : Table κ α) (key : κ) : Bool := (table.get? key).isSome

/-- Replaces the value of a present key where it stands and puts a new key last. -/
def replaceOrAppend (key : κ) (value : α) : List (κ × α) → List (κ × α)
  | [] => [(key, value)]
  | entry :: rest =>
      if entry.1 = key then (key, value) :: rest else entry :: replaceOrAppend key value rest

theorem keys_replaceOrAppend (key : κ) (value : α) (entries : List (κ × α)) :
    (replaceOrAppend key value entries).map Prod.fst =
      if key ∈ entries.map Prod.fst then entries.map Prod.fst
      else entries.map Prod.fst ++ [key] := by
  induction entries with
  | nil => simp [replaceOrAppend]
  | cons entry rest ih =>
      by_cases same : entry.1 = key
      · simp [replaceOrAppend, same]
      · have other : key ≠ entry.1 := fun equal => same equal.symm
        simp only [replaceOrAppend, if_neg same, List.map_cons, ih, List.mem_cons, other, false_or]
        split <;> simp

def insert (table : Table κ α) (key : κ) (value : α) : Table κ α where
  entries := replaceOrAppend key value table.entries
  keys_nodup := by
    rw [keys_replaceOrAppend]
    split
    · exact table.keys_nodup
    · next absent =>
        refine List.nodup_append.mpr ⟨table.keys_nodup, by simp, ?_⟩
        intro first firstMember second secondMember equal
        simp only [List.mem_singleton] at secondMember
        exact absent (secondMember ▸ equal ▸ firstMember)

def erase (table : Table κ α) (key : κ) : Table κ α where
  entries := table.entries.filter fun entry => entry.1 ≠ key
  keys_nodup := table.keys_nodup.sublist (List.filter_sublist.map Prod.fst)

theorem find?_replaceOrAppend (key other : κ) (value : α) (entries : List (κ × α)) :
    find? other (replaceOrAppend key value entries) =
      if other = key then some value else find? other entries := by
  induction entries with
  | nil => simp [replaceOrAppend, find?, eq_comm]
  | cons entry rest ih =>
      by_cases same : entry.1 = key <;> by_cases sought : entry.1 = other <;>
        by_cases both : other = key <;> simp_all [replaceOrAppend, find?]

theorem find?_filter_ne (key other : κ) (entries : List (κ × α)) :
    find? other (entries.filter fun entry => entry.1 ≠ key) =
      if other = key then none else find? other entries := by
  induction entries with
  | nil => simp [find?]
  | cons entry rest ih =>
      by_cases same : entry.1 = key <;> by_cases sought : entry.1 = other <;>
        by_cases both : other = key <;> simp_all [find?]

@[simp]
theorem get?_empty (key : κ) : (∅ : Table κ α).get? key = none := rfl

theorem get?_insert (table : Table κ α) (key other : κ) (value : α) :
    (table.insert key value).get? other = if other = key then some value else table.get? other :=
  find?_replaceOrAppend key other value table.entries

@[simp]
theorem get?_insert_self (table : Table κ α) (key : κ) (value : α) :
    (table.insert key value).get? key = some value := by
  simp [get?_insert]

theorem get?_erase (table : Table κ α) (key other : κ) :
    (table.erase key).get? other = if other = key then none else table.get? other :=
  find?_filter_ne key other table.entries

@[simp]
theorem get?_erase_self (table : Table κ α) (key : κ) : (table.erase key).get? key = none := by
  simp [get?_erase]

theorem find?_isSome_iff {key : κ} {entries : List (κ × α)} :
    (find? key entries).isSome = true ↔ key ∈ entries.map Prod.fst := by
  induction entries with
  | nil => simp [find?]
  | cons entry rest ih =>
      by_cases same : entry.1 = key
      · simp [find?, same]
      · have other : key ≠ entry.1 := fun equal => same equal.symm
        simp only [find?, if_neg same, ih, List.map_cons, List.mem_cons, other, false_or]

theorem contains_iff {table : Table κ α} {key : κ} :
    table.contains key = true ↔ key ∈ table.keys :=
  find?_isSome_iff

theorem get?_eq_none {table : Table κ α} {key : κ} (absent : key ∉ table.keys) :
    table.get? key = none := by
  rw [← Option.not_isSome_iff_eq_none]
  exact fun present => absent (find?_isSome_iff.mp present)

theorem keys_insert (table : Table κ α) (key : κ) (value : α) :
    (table.insert key value).keys =
      if key ∈ table.keys then table.keys else table.keys ++ [key] :=
  keys_replaceOrAppend key value table.entries

theorem mem_keys_erase (table : Table κ α) (key other : κ) :
    other ∈ (table.erase key).keys ↔ other ≠ key ∧ other ∈ table.keys := by
  simp [keys, erase, and_comm]

theorem replaceOrAppend_of_find? {key : κ} {value : α} {entries : List (κ × α)}
    (found : find? key entries = some value) : replaceOrAppend key value entries = entries := by
  induction entries with
  | nil => cases found
  | cons entry rest ih =>
      by_cases same : entry.1 = key
      · rw [find?, if_pos same, Option.some.injEq] at found
        rw [replaceOrAppend, if_pos same, ← found, ← same]
      · rw [find?, if_neg same] at found
        rw [replaceOrAppend, if_neg same, ih found]

/-- Inserting what is there already changes nothing. -/
theorem insert_of_get? {table : Table κ α} {key : κ} {value : α}
    (found : table.get? key = some value) : table.insert key value = table := by
  unfold insert
  congr 1
  exact replaceOrAppend_of_find? found

/-! ## Values -/

theorem filter_key_of_not_mem {key : κ} {entries : List (κ × α)}
    (absent : key ∉ entries.map Prod.fst) :
    entries.filter (fun entry => entry.1 ≠ key) = entries := by
  rw [List.filter_eq_self]
  intro entry member
  have different : entry.1 ≠ key := by
    intro same
    exact absent (same ▸ List.mem_map_of_mem member)
  exact decide_eq_true different

theorem values_perm_of_find? {key : κ} {value : α} {entries : List (κ × α)}
    (unique : (entries.map Prod.fst).Nodup) (found : find? key entries = some value) :
    (entries.map Prod.snd).Perm
      (value :: (entries.filter fun entry => entry.1 ≠ key).map Prod.snd) := by
  induction entries with
  | nil => cases found
  | cons entry rest ih =>
      rw [List.map_cons, List.nodup_cons] at unique
      by_cases same : entry.1 = key
      · rw [find?, if_pos same, Option.some.injEq] at found
        rw [List.filter_cons_of_neg (by simp [same]), filter_key_of_not_mem (same ▸ unique.1),
          List.map_cons, found]
      · rw [find?, if_neg same] at found
        rw [List.filter_cons_of_pos (by simp [same]), List.map_cons, List.map_cons]
        exact ((ih unique.2 found).cons entry.2).trans (.swap value entry.2 _)

theorem values_replaceOrAppend_perm (key : κ) (value : α) {entries : List (κ × α)}
    (unique : (entries.map Prod.fst).Nodup) :
    ((replaceOrAppend key value entries).map Prod.snd).Perm
      (value :: (entries.filter fun entry => entry.1 ≠ key).map Prod.snd) := by
  induction entries with
  | nil => exact .refl _
  | cons entry rest ih =>
      rw [List.map_cons, List.nodup_cons] at unique
      by_cases same : entry.1 = key
      · rw [replaceOrAppend, if_pos same, List.filter_cons_of_neg (by simp [same]),
          filter_key_of_not_mem (same ▸ unique.1), List.map_cons]
      · rw [replaceOrAppend, if_neg same, List.filter_cons_of_pos (by simp [same]),
          List.map_cons, List.map_cons]
        exact ((ih unique.2).cons entry.2).trans (.swap value entry.2 _)

theorem values_perm_of_get? {table : Table κ α} {key : κ} {value : α}
    (found : table.get? key = some value) :
    table.values.Perm (value :: (table.erase key).values) :=
  values_perm_of_find? table.keys_nodup found

theorem values_insert_perm (table : Table κ α) (key : κ) (value : α) :
    (table.insert key value).values.Perm (value :: (table.erase key).values) :=
  values_replaceOrAppend_perm key value table.keys_nodup

theorem erase_of_get?_eq_none {table : Table κ α} {key : κ} (absent : table.get? key = none) :
    table.erase key = table := by
  have stranger : key ∉ table.entries.map Prod.fst := by
    intro member
    have present := find?_isSome_iff.mpr member
    rw [show find? key table.entries = none from absent] at present
    cases present
  unfold erase
  congr 1
  exact filter_key_of_not_mem stranger

theorem erase_erase_self (table : Table κ α) (key : κ) :
    (table.erase key).erase key = table.erase key :=
  erase_of_get?_eq_none (table.get?_erase_self key)

theorem mem_of_find? {key : κ} {value : α} {entries : List (κ × α)}
    (found : find? key entries = some value) : (key, value) ∈ entries := by
  induction entries with
  | nil => cases found
  | cons entry rest ih =>
      by_cases same : entry.1 = key
      · rw [find?, if_pos same] at found
        cases found
        cases same
        exact List.mem_cons_self
      · rw [find?, if_neg same] at found
        exact List.mem_cons_of_mem _ (ih found)

theorem find?_of_mem {entries : List (κ × α)} (unique : (entries.map Prod.fst).Nodup)
    {entry : κ × α} (member : entry ∈ entries) : find? entry.1 entries = some entry.2 := by
  induction entries with
  | nil => cases member
  | cons first rest ih =>
      rw [List.map_cons, List.nodup_cons] at unique
      rcases List.mem_cons.mp member with rfl | later
      · exact if_pos rfl
      · have other : first.1 ≠ entry.1 := by
          intro same
          exact unique.1 (same ▸ List.mem_map_of_mem later)
        rw [find?, if_neg other, ih unique.2 later]

theorem filter_key_of_mem {entries : List (κ × α)} (unique : (entries.map Prod.fst).Nodup)
    {entry : κ × α} (member : entry ∈ entries) :
    entries.filter (fun other => other.1 = entry.1) = [entry] := by
  induction entries with
  | nil => cases member
  | cons first rest ih =>
      rw [List.map_cons, List.nodup_cons] at unique
      rcases List.mem_cons.mp member with rfl | later
      · rw [List.filter_cons_of_pos (by simp), List.filter_eq_nil_iff.mpr]
        intro other inside
        have different : other.1 ≠ entry.1 := by
          intro same
          exact unique.1 (same ▸ List.mem_map_of_mem inside)
        simpa using different
      · have different : first.1 ≠ entry.1 := by
          intro same
          exact unique.1 (same ▸ List.mem_map_of_mem later)
        rw [List.filter_cons_of_neg (by simpa using different), ih unique.2 later]

theorem get?_of_mem {table : Table κ α} {entry : κ × α} (member : entry ∈ table.entries) :
    table.get? entry.1 = some entry.2 :=
  find?_of_mem table.keys_nodup member

theorem mem_values_of_get? {table : Table κ α} {key : κ} {value : α}
    (found : table.get? key = some value) : value ∈ table.values :=
  (values_perm_of_get? found).mem_iff.mpr List.mem_cons_self

end Table

end Latch
