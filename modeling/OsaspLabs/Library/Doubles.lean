import Mathlib.Algebra.Order.Field.Rat
import Mathlib.Order.Monotone.Basic
import Mathlib.Tactic.Positivity
import Mathlib.Tactic.Ring

/-! # Doubles that are not negative

A double of 64 bits is its significand times a power of two. As long as the sign bit is clear,
the numbers are in the order of their bits. -/

namespace OsaspLabs

/-- A finite double with a clear sign bit. -/
structure Double where
  bits : UInt64
  finite : bits.toNat < 2047 * 2 ^ 52
  deriving DecidableEq

namespace Double

def exponent (bits : ℕ) : ℕ := bits / 2 ^ 52

def fraction (bits : ℕ) : ℕ := bits % 2 ^ 52

/-- The number in units of the smallest positive double. -/
def units (bits : ℕ) : ℕ :=
  if exponent bits = 0 then fraction bits
  else (2 ^ 52 + fraction bits) * 2 ^ (exponent bits - 1)

def value (d : Double) : ℚ := units d.bits.toNat / 2 ^ 1074

/-- The next bits with the same exponent. -/
theorem succ_of_fraction_lt {bits : ℕ} (h : fraction bits + 1 < 2 ^ 52) :
    exponent (bits + 1) = exponent bits ∧ fraction (bits + 1) = fraction bits + 1 := by
  unfold exponent fraction at *
  omega

/-- The next bits have the next exponent. -/
theorem succ_of_fraction_eq {bits : ℕ} (h : fraction bits + 1 = 2 ^ 52) :
    exponent (bits + 1) = exponent bits + 1 ∧ fraction (bits + 1) = 0 := by
  unfold exponent fraction at *
  omega

theorem fraction_lt (bits : ℕ) : fraction bits < 2 ^ 52 := Nat.mod_lt _ (by decide)

theorem units_lt_succ (bits : ℕ) : units bits < units (bits + 1) := by
  have hlt := fraction_lt bits
  by_cases hfraction : fraction bits + 1 < 2 ^ 52
  · obtain ⟨hexponent, hnext⟩ := succ_of_fraction_lt hfraction
    unfold units
    rw [hexponent, hnext]
    split
    · exact Nat.lt_succ_self _
    · exact Nat.mul_lt_mul_of_pos_right (by omega) (Nat.two_pow_pos _)
  · have hlast : fraction bits + 1 = 2 ^ 52 := by omega
    obtain ⟨hexponent, hnext⟩ := succ_of_fraction_eq hlast
    have hpos : exponent bits + 1 ≠ 0 := Nat.succ_ne_zero _
    unfold units
    rw [hexponent, hnext, if_neg hpos, Nat.add_zero, Nat.add_sub_cancel]
    split
    · rename_i hzero
      rw [hzero, pow_zero, Nat.mul_one]
      exact hlt
    · rename_i hexp
      obtain ⟨e, he⟩ : ∃ e, exponent bits = e + 1 := Nat.exists_eq_succ_of_ne_zero hexp
      rw [he, Nat.add_sub_cancel]
      calc (2 ^ 52 + fraction bits) * 2 ^ e < (2 ^ 52 * 2) * 2 ^ e :=
            Nat.mul_lt_mul_of_pos_right (by omega) (Nat.two_pow_pos _)
        _ = 2 ^ 52 * 2 ^ (e + 1) := by ring

theorem strictMono_units : StrictMono units := strictMono_nat_of_lt_succ units_lt_succ

theorem value_lt_value_iff {d d' : Double} : d.value < d'.value ↔ d.bits.toNat < d'.bits.toNat := by
  have hpos : (0 : ℚ) < 2 ^ 1074 := by positivity
  rw [value, value, div_lt_div_iff_of_pos_right hpos, Nat.cast_lt, strictMono_units.lt_iff_lt]

theorem toNat_bits_injective : Function.Injective fun d : Double => d.bits.toNat := by
  intro d d' h
  obtain ⟨bits, hbits⟩ := d
  obtain ⟨bits', hbits'⟩ := d'
  have hsame : bits = bits' := UInt64.toNat_inj.mp h
  subst hsame
  rfl

instance : LinearOrder Double := LinearOrder.lift' (fun d => d.bits.toNat) toNat_bits_injective

theorem lt_iff {d d' : Double} : d < d' ↔ d.value < d'.value := value_lt_value_iff.symm

theorem le_iff {d d' : Double} : d ≤ d' ↔ d.value ≤ d'.value := by
  rw [← not_lt, ← not_lt, lt_iff]

end Double

end OsaspLabs
