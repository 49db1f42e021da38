import OsaspLabs.SortIndex.File

/-! # What the argument checks of LAB_6 guarantee

The sort needs slices that make up the whole window on every level. No check compares
`memsize` with `blocks`, and `memsize` is compared with 0 only for equality. -/

namespace OsaspLabs.SortIndex

/-- The numbers of slices that a window is divided into: `blocks` for the sort phase, then
half of it for every round of merges, and 2 at last. -/
inductive Level (blocks : ℤ) : ℤ → Prop
  | blocks : Level blocks blocks
  | half {B : ℤ} (level : Level blocks B) (more : 2 < B) : Level blocks (B.tdiv 2)

/-- What the sort relies on. -/
structure Guaranteed (a : Arguments) : Prop where
  memsize : 0 < a.memsize
  blocks : ∃ k : ℕ, a.blocks = 2 ^ k
  threads_ge : minThreads ≤ a.threads
  threads_le : a.threads ≤ maxThreads
  threads_lt : a.threads < a.blocks
  /-- The slices leave out no record. -/
  slices : ∀ B, Level a.blocks B → B * a.memsize.tdiv B = a.memsize

/-- The turns of `while (tmp != 1)`, as many as `fuel`. -/
def powerOfTwoLoop : ℕ → ℤ → Option Bool
  | 0, _ => none
  | fuel + 1, tmp =>
      if tmp = 1 then some true
      else if tmp.tmod 2 ≠ 0 then some false
      else powerOfTwoLoop fuel (tmp.tdiv 2)

/-- The loop ends for every number but 0. -/
theorem powerOfTwoLoop_ends (tmp : ℤ) (h : tmp ≠ 0) :
    ∃ fuel, powerOfTwoLoop fuel tmp = some (powerOfTwo tmp h) := by
  fun_induction powerOfTwo tmp h with
  | case1 => exact ⟨1, rfl⟩
  | case2 tmp h hone hodd => exact ⟨1, by rw [powerOfTwoLoop, if_neg hone, if_pos hodd]⟩
  | case3 tmp h hone hodd ih =>
      obtain ⟨fuel, hfuel⟩ := ih
      exact ⟨fuel + 1, by rw [powerOfTwoLoop, if_neg hone, if_neg hodd, hfuel]⟩

theorem Level.dvd {k : ℕ} {blocks B : ℤ} (hblocks : blocks = 2 ^ k) (h : Level blocks B) :
    B ∣ blocks ∧ ∃ j : ℕ, B = 2 ^ j := by
  induction h with
  | blocks => exact ⟨dvd_rfl, k, hblocks⟩
  | half _ more ih =>
      obtain ⟨hdvd, j, rfl⟩ := ih
      cases j with
      | zero => exact absurd more (by decide)
      | succ j =>
          have hhalf : (2 ^ (j + 1) : ℤ).tdiv 2 = 2 ^ j := by
            rw [pow_succ']
            exact Int.mul_tdiv_cancel_left _ (by decide)
          rw [hhalf]
          exact ⟨(Dvd.intro_left 2 (pow_succ' 2 j).symm).trans hdvd, j, rfl⟩

/-- Arguments that pass are good for the sort exactly if `memsize` is positive and the blocks
divide it. All other guarantees hold, and the loop over the blocks ends. -/
theorem arguments_guaranteed_iff {pageSize argc : ℤ} {a a' : Arguments}
    (haccepted : checkArgs pageSize argc a = .ok a') :
    (Guaranteed a ↔ 0 < a.memsize ∧ a.blocks ∣ a.memsize) ∧
    ((∃ k : ℕ, a.blocks = 2 ^ k) ∧ minThreads ≤ a.threads ∧ a.threads ≤ maxThreads ∧
      a.threads < a.blocks) ∧
    ∀ (tmp : ℤ) (h : tmp ≠ 0), ∃ fuel, powerOfTwoLoop fuel tmp = some (powerOfTwo tmp h) := by
  obtain ⟨-, hacc⟩ := checkArgs_ok haccepted
  obtain ⟨k, hk⟩ := hacc.blocks
  refine ⟨⟨fun h => ?_, fun ⟨hm, hdvd⟩ => ?_⟩,
    ⟨hacc.blocks, hacc.threads_ge, hacc.threads_le, hacc.threads_lt⟩, powerOfTwoLoop_ends⟩
  · exact ⟨h.memsize, Dvd.intro _ (h.slices a.blocks .blocks)⟩
  · exact
      { memsize := hm
        blocks := hacc.blocks
        threads_ge := hacc.threads_ge
        threads_le := hacc.threads_le
        threads_lt := hacc.threads_lt
        slices := fun B hB => Int.mul_tdiv_cancel' ((hB.dvd hk).1.trans hdvd) }

/-- A negative size and more blocks than records are both let through. -/
theorem arguments_not_guaranteed :
    checkArgs 4096 5 ⟨-4096, 16, 8⟩ = .ok ⟨-4096, 16, 8⟩ ∧ ¬ Guaranteed ⟨-4096, 16, 8⟩ ∧
      checkArgs 4096 5 ⟨4096, 8192, 8⟩ = .ok ⟨4096, 8192, 8⟩ ∧
        ¬ Guaranteed ⟨4096, 8192, 8⟩ := by
  refine ⟨checkArgs_of_accepted (by decide) ⟨by decide, by decide, ⟨4, by decide⟩, by decide,
    by decide, by decide⟩, fun h => absurd h.memsize (by decide),
    checkArgs_of_accepted (by decide) ⟨by decide, by decide, ⟨13, by decide⟩, by decide,
    by decide, by decide⟩, fun h => absurd (h.slices 8192 .blocks) (by decide)⟩

theorem arguments_guaranteed_iff_small : Guaranteed smallArguments := by
  have haccepted := checkArgs_of_accepted (by decide : (4 : ℤ) ≤ 5) smallArguments_accepted
  exact (arguments_guaranteed_iff haccepted).1.mpr (by decide)

end OsaspLabs.SortIndex
