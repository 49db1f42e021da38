import Mathlib.Data.Int.Notation
import Mathlib.Data.Nat.Notation
import Mathlib.Algebra.Order.Ring.Int
import Mathlib.Algebra.Ring.Int.Parity

/-! # The argument checks of LAB_6

`main` has read its arguments by `strtol` when it checks them. A refusal carries the exit
code and the text on `stderr`. -/

namespace OsaspLabs.SortIndex

def maxThreads : ℤ := 8192

def minThreads : ℤ := 8

/-- The arguments that `main` hands to `createThreads`. -/
structure Arguments where
  memsize : ℤ
  blocks : ℤ
  threads : ℤ
  deriving DecidableEq

theorem eq_two_mul_tdiv {tmp : ℤ} (h : ¬ tmp.tmod 2 ≠ 0) : tmp = 2 * tmp.tdiv 2 := by
  have hdvd : (2 : ℤ) ∣ tmp := Int.dvd_of_tmod_eq_zero (by omega)
  exact (Int.mul_tdiv_cancel' hdvd).symm

/-- `while (tmp != 1)`; it is never entered with 0, on which it would not end. -/
def powerOfTwo (tmp : ℤ) (h : tmp ≠ 0) : Bool :=
  if tmp = 1 then true
  else if hodd : tmp.tmod 2 ≠ 0 then false
  else powerOfTwo (tmp.tdiv 2) (by have := eq_two_mul_tdiv hodd; omega)
termination_by tmp.natAbs
decreasing_by
  have := eq_two_mul_tdiv hodd
  omega

def checkArgs (pageSize argc : ℤ) (a : Arguments) : Except (ℤ × String) Arguments :=
  if argc < 4 then
    .error (-1, "[ERROR]: Not enough arguments, please run program with memory size, " ++
      "blocks amount, threads amount and filename\n")
  else if a.memsize = 0 then
    .error (-2, "[ERROR]: Memory size is zero or not a number\n")
  else if a.memsize.tmod pageSize ≠ 0 then
    .error (-3, "[ERROR]: Memory size is not multiple of " ++ toString pageSize ++ "\n")
  else if hblocks : a.blocks = 0 then
    .error (-2, "[ERROR]: Blocks amount is zero or not a number\n")
  else if powerOfTwo a.blocks hblocks = false then
    .error (-4, "[ERROR]: Blocks amount is not power of 2\n")
  else if a.threads = 0 then
    .error (-2, "[ERROR]: Threads amount is zero or not a number\n")
  else if a.threads < minThreads then
    .error (-5, "[ERROR]: Threads amount is less than amount of kernels\n")
  else if a.threads > maxThreads then
    .error (-5, "[ERROR]: Threads amount is greater than max amount of threads\n")
  else if a.threads ≥ a.blocks then
    .error (-6, "[ERROR]: Threads amount is greater than blocks amount\n")
  else .ok a

/-- The loop accepts exactly the powers of two. -/
theorem powerOfTwo_iff (tmp : ℤ) (h : tmp ≠ 0) :
    powerOfTwo tmp h = true ↔ ∃ k : ℕ, tmp = 2 ^ k := by
  fun_induction powerOfTwo tmp h with
  | case1 h => exact ⟨fun _ => ⟨0, rfl⟩, fun _ => rfl⟩
  | case2 tmp h hone hodd =>
      refine ⟨nofun, ?_⟩
      rintro ⟨k, rfl⟩
      cases k with
      | zero => exact absurd rfl hone
      | succ k => exact absurd (by rw [pow_succ, Int.mul_tmod_left]) hodd
  | case3 tmp h hone hodd ih =>
      have htwo := eq_two_mul_tdiv hodd
      rw [ih]
      constructor
      · rintro ⟨k, hk⟩
        exact ⟨k + 1, by rw [htwo, hk, pow_succ, mul_comm]⟩
      · rintro ⟨k, hk⟩
        cases k with
        | zero => exact absurd hk hone
        | succ k =>
            rw [pow_succ] at hk
            exact ⟨k, by omega⟩

/-- What `createThreads` can rely on. -/
structure Accepted (pageSize : ℤ) (a : Arguments) : Prop where
  memsize : a.memsize ≠ 0
  pages : a.memsize.tmod pageSize = 0
  blocks : ∃ k : ℕ, a.blocks = 2 ^ k
  threads_ge : minThreads ≤ a.threads
  threads_le : a.threads ≤ maxThreads
  threads_lt : a.threads < a.blocks

theorem checkArgs_ok {pageSize argc : ℤ} {a a' : Arguments}
    (h : checkArgs pageSize argc a = .ok a') : a' = a ∧ Accepted pageSize a := by
  unfold checkArgs at h
  repeat' split at h
  all_goals cases h
  rename_i hargc hmemsize hpages hblocks hpow hthreads hmin hmax hlt
  refine ⟨rfl, hmemsize, by omega, ?_, by omega, by omega, by omega⟩
  exact (powerOfTwo_iff a.blocks hblocks).mp (by simpa using hpow)

theorem checkArgs_of_accepted {pageSize argc : ℤ} {a : Arguments} (hargc : 4 ≤ argc)
    (h : Accepted pageSize a) : checkArgs pageSize argc a = .ok a := by
  have hmin : minThreads = 8 := rfl
  obtain ⟨hmemsize, hpages, hblocks, hge, hle, hlt⟩ := h
  have hne : a.blocks ≠ 0 := by omega
  have hpow := (powerOfTwo_iff a.blocks hne).mpr hblocks
  unfold checkArgs
  rw [if_neg (by omega), if_neg hmemsize, if_neg (by omega), dif_neg hne,
    if_neg (by simp [hpow]), if_neg (by omega), if_neg (by omega), if_neg (by omega),
    if_neg (by omega)]

end OsaspLabs.SortIndex
