import Latch.Panic

/-!
# Guarded values

A value that has one user at a time. Whoever acquires it has to hand it back, and until then every
other use breaks off. Callbacks must therefore never run while a value is acquired.
-/

set_option autoImplicit false

namespace Latch

/-- A value, and whether somebody is using it right now. -/
structure Guarded (α : Type) where
  value : α
  inUse : Bool := false

namespace Guarded

variable {α : Type}

/-- Takes the value for writing. -/
def acquire (cell : Guarded α) : Except Panic (Guarded α) :=
  if cell.inUse then .error .alreadyInUse else .ok { cell with inUse := true }

/-- Hands the value back, changed or not. -/
def release (cell : Guarded α) (value : α) : Guarded α := { cell with value, inUse := false }

/-- Looks at the value without taking it. -/
def read (cell : Guarded α) : Except Panic α :=
  if cell.inUse then .error .beingWritten else .ok cell.value

@[simp]
theorem release_value (cell : Guarded α) (value : α) : (cell.release value).value = value := rfl

@[simp]
theorem release_inUse (cell : Guarded α) (value : α) : (cell.release value).inUse = false := rfl

theorem acquire_eq_ok_iff {cell acquired : Guarded α} :
    cell.acquire = .ok acquired ↔ cell.inUse = false ∧ acquired = ⟨cell.value, true⟩ := by
  unfold acquire
  cases cell.inUse <;> simp [eq_comm]

theorem read_eq_ok_iff {cell : Guarded α} {value : α} :
    cell.read = .ok value ↔ cell.inUse = false ∧ value = cell.value := by
  unfold read
  cases cell.inUse <;> simp [eq_comm]

end Guarded

end Latch
