import Mathlib.Algebra.Order.Ring.Int

/-! # Signed integers of the C language

Values are integers. A result outside the range of its type is either no result at all or,
as the machine has it, the value of the range with the same bits. -/

namespace OsaspLabs

/-- The range of a signed type of `w` bits. -/
def FitsSigned (w : ℕ) (x : ℤ) : Prop := -2 ^ (w - 1) ≤ x ∧ x < 2 ^ (w - 1)

instance (w : ℕ) : DecidablePred (FitsSigned w) := fun x =>
  inferInstanceAs (Decidable (-2 ^ (w - 1) ≤ x ∧ x < 2 ^ (w - 1)))

/-- A value that overflows its type is none. -/
def checked (w : ℕ) (x : ℤ) : Option ℤ := if FitsSigned w x then some x else none

/-- A value that overflows its type wraps around. -/
def wrapped (w : ℕ) (x : ℤ) : ℤ := x.bmod (2 ^ w)

/-- The conversion to an unsigned type of 64 bits. -/
def toUnsigned (x : ℤ) : ℕ := (x % 2 ^ 64).toNat

theorem checked_bind_of_fits {α : Type} {w : ℕ} {x : ℤ} {f : ℤ → Option α}
    (h : FitsSigned w x) : (checked w x >>= f) = f x := by
  simp [checked, h]

/-- Where checked arithmetic has a result it is the one of the integers. -/
theorem of_checked_bind {α : Type} {w : ℕ} {x : ℤ} {f : ℤ → Option α} {r : α}
    (h : (checked w x >>= f) = some r) : f x = some r := by
  by_cases hx : FitsSigned w x
  · rwa [checked_bind_of_fits hx] at h
  · simp [checked, hx] at h

end OsaspLabs
