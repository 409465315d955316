/-!
# Wakers

A waker is a handle through which a waiting task is told to run again. This library never looks
inside one; it only asks whether two of them would wake the same task.
-/

set_option autoImplicit false

namespace Latch

/-- Wakers that can be asked whether they would wake the same task. -/
class Waker (ω : Type) where
  willWake : ω → ω → Bool

export Waker (willWake)

/-- Waking the same task is an equivalence between wakers. -/
class LawfulWaker (ω : Type) [Waker ω] : Prop where
  refl : ∀ waker : ω, willWake waker waker = true
  symm : ∀ first second : ω, willWake first second = true → willWake second first = true
  trans : ∀ first second third : ω,
    willWake first second = true → willWake second third = true → willWake first third = true

end Latch
