import OsaspLabs.SortIndex.MergeRound
import OsaspLabs.SortIndex.SortPhase

/-! # One window with all threads in step

The machines of the sort phase and of the merge rounds run between the barriers; what they
hand to `qsort` and `merge` is applied to the records in the order in which it happens. -/

namespace OsaspLabs.SortIndex

open Runs

variable {τ : Type*} [LinearOrder τ]

/-- `mergePhase` from the test `BLOCKS > 4` on. -/
inductive RoundsRun (memsize threads : ℕ) :
    ℕ → List BlocksMap → Window τ → Window τ → Prop
  | stop {BLOCKS : ℕ} {map : List BlocksMap} {w : Window τ} (small : ¬ 4 < BLOCKS) :
      RoundsRun memsize threads BLOCKS map w w
  | round {BLOCKS : ℕ} {map : List BlocksMap} {s : RoundState} {w w₁ w₂ : Window τ}
      (big : 4 < BLOCKS)
      (run : Reaches (roundStep (BLOCKS / 2)) anything
        (roundInit threads (resetMap (BLOCKS / 2) map)) s)
      (done : s.Complete)
      (merges : mergeAll memsize (BLOCKS / 2) (s.merges.map Prod.snd) w = some w₁)
      (rest : RoundsRun memsize threads (BLOCKS / 2) s.map w₁ w₂) :
      RoundsRun memsize threads BLOCKS map w w₂

/-- One turn of the loop in `createThreads`, up to the unmapping of the window. -/
inductive WindowRun (amount memsize blocks : ℕ) : Window τ → Window τ → Prop
  | mk {s : SortState} {behind : BlocksMap} {w w₁ w₂ w₃ : Window τ}
      /- the `int` that counts the blocks does not overflow -/
      (counter : blocks < 2 ^ 31)
      (sorting : Reaches (sortStep blocks) anything (sortInit amount blocks) s)
      (done : s.Complete)
      (qsorts : SortRun (memsize / blocks) (s.qsorts.map Prod.snd) w w₁)
      /- `behind` is the memory behind the table, which reads as busy -/
      (busy : behind.isBusy = 1)
      (rounds : RoundsRun memsize (amount + 1) (2 * blocks) (s.map ++ [behind]) w₁ w₂)
      (last : merge memsize 2 0 w₂ = some w₃) :
      WindowRun amount memsize blocks w w₃

/-- Each round halves `BLOCKS`, and the rounds after it start from an even number. -/
theorem half_blocks (j : ℕ) :
    2 ^ (j + 2) = 2 * 2 ^ (j + 1) ∧ 2 * 2 ^ (j + 2) / 2 = 2 * 2 ^ (j + 1) ∧
      2 ^ (j + 1) % 2 = 0 ∧ 0 < 2 ^ (j + 1) := by
  have hpow : 2 ^ (j + 2) = 2 * 2 ^ (j + 1) := pow_succ' 2 (j + 1)
  refine ⟨hpow, ?_, ?_, Nat.two_pow_pos _⟩
  · rw [hpow, Nat.mul_div_cancel_left _ Nat.two_pos]
  · rw [pow_succ']
    exact Nat.mul_mod_right 2 _

/-- Every schedule of the rounds computes the same. -/
theorem RoundsRun.eq {memsize threads j : ℕ} {map : List BlocksMap} {w w' : Window τ}
    (hthreads : 0 < threads) (hdvd : 2 ^ (j + 1) ∣ memsize) (hw : w.length = memsize)
    (hmap : TableReady (2 ^ (j + 1)) map)
    (h : RoundsRun memsize threads (2 * 2 ^ (j + 1)) map w w') :
    w' = roundsResult memsize j w := by
  induction j generalizing map w with
  | zero =>
      cases h with
      | stop => rfl
      | round big => exact absurd big (by decide)
  | succ j ih =>
      obtain ⟨hpow, hhalf, heven, hpos⟩ := half_blocks j
      rw [hpow] at hmap hdvd
      cases h with
      | stop small =>
          rw [hpow] at small
          omega
      | round big run done merges rest =>
          rw [hhalf] at run merges rest
          have hok := roundOk_of_reaches hthreads hmap run
          have hmerged := mergeAll_eq_mergePairs hdvd hw (hok.merges_perm done)
          obtain rfl := Option.some.inj (merges.symm.trans hmerged)
          exact ih ((Nat.dvd_mul_left _ 2).trans hdvd) (length_mergePairs hdvd hw)
            (hok.ready done heven hpos) rest

theorem RoundsRun.exists {memsize threads j : ℕ} {map : List BlocksMap} {w : Window τ}
    (hthreads : 0 < threads) (hdvd : 2 ^ (j + 1) ∣ memsize) (hw : w.length = memsize)
    (hmap : TableReady (2 ^ (j + 1)) map) :
    ∃ w', RoundsRun memsize threads (2 * 2 ^ (j + 1)) map w w' := by
  induction j generalizing map w with
  | zero => exact ⟨w, .stop (by decide)⟩
  | succ j ih =>
      obtain ⟨hpow, hhalf, heven, hpos⟩ := half_blocks j
      rw [hpow] at hmap hdvd
      obtain ⟨s, run, done⟩ := round_completes hthreads hmap
      have hok := roundOk_of_reaches hthreads hmap run
      have hmerged := mergeAll_eq_mergePairs hdvd hw (hok.merges_perm done)
      obtain ⟨w', rest⟩ := ih ((Nat.dvd_mul_left _ 2).trans hdvd) (length_mergePairs hdvd hw)
        (hok.ready done heven hpos)
      rw [← hhalf] at run hmerged rest
      exact ⟨w', .round (by omega) run done hmerged rest⟩

/-- The table of the sort phase, with a busy slot behind it, is ready for the first round. -/
theorem SortOk.tableReady {amount blocks : ℕ} {s : SortState} {behind : BlocksMap}
    (h : SortOk amount blocks s) (hbusy : behind.isBusy = 1) :
    TableReady blocks (s.map ++ [behind]) where
  size := by simp [h.size]
  entries := by
    intro i hi e he
    rw [List.getElem?_append_left (by rw [h.size]; exact hi)] at he
    exact h.entries i e he
  top := ⟨behind, by rw [← h.size]; simp, hbusy⟩

/-- The sort phase, run to its end, has sorted every block. -/
theorem SortOk.slicesSorted {amount memsize blocks : ℕ} {s : SortState} {w w₁ : Window τ}
    (h : SortOk amount blocks s) (done : s.Complete)
    (qsorts : SortRun (memsize / blocks) (s.qsorts.map Prod.snd) w w₁)
    (hw : w.length = memsize) : SlicesSorted memsize blocks w₁ := by
  refine ⟨qsorts.length.trans hw, fun i hi => qsorts.sorted (.inl ?_)⟩
  obtain ⟨t, ht⟩ := h.covers done hi
  exact List.mem_map.mpr ⟨_, ht, rfl⟩

/-- A window ends sorted, with the records it had. -/
theorem WindowRun.sorted {amount memsize blocks k : ℕ} {w w' : Window τ}
    (h : WindowRun amount memsize blocks w w') (hk : 1 ≤ k) (hblocks : blocks = 2 ^ k)
    (hamount : amount < blocks) (hdvd : blocks ∣ memsize) (hw : w.length = memsize) :
    Sorted w' ∧ w'.Perm w := by
  obtain ⟨j, rfl⟩ : ∃ j, k = j + 1 := ⟨k - 1, by omega⟩
  obtain @⟨s, behind, _, w₁, w₂, _, _, sorting, done, qsorts, busy, rounds, last⟩ := h
  have hok := sortOk_of_reaches hamount sorting
  have hlen := qsorts.length.trans hw
  have hmap := hok.tableReady busy
  rw [hblocks] at rounds hdvd hmap
  obtain rfl := rounds.eq (Nat.succ_pos amount) hdvd hlen hmap
  have hslices := hblocks ▸ hok.slicesSorted done qsorts hw
  obtain ⟨hhalves, hperm⟩ := hslices.roundsResult hdvd
  have htwo : 2 ∣ memsize := (Dvd.intro _ (pow_succ' 2 j).symm).trans hdvd
  obtain ⟨w₃, hmerge, hsorted, hlast⟩ := merge_halves htwo hhalves
  obtain rfl := Option.some.inj (last.symm.trans hmerge)
  exact ⟨hsorted, hlast.trans (hperm.trans qsorts.perm)⟩

/-- Every window can be sorted to the end. -/
theorem WindowRun.exists {amount memsize blocks k : ℕ} {w : Window τ} (hk : 1 ≤ k)
    (hblocks : blocks = 2 ^ k) (hamount : amount < blocks) (hdvd : blocks ∣ memsize)
    (hw : w.length = memsize) (hcounter : blocks < 2 ^ 31) :
    ∃ w', WindowRun amount memsize blocks w w' := by
  obtain ⟨j, rfl⟩ : ∃ j, k = j + 1 := ⟨k - 1, by omega⟩
  obtain ⟨s, sorting, done⟩ := sortPhase_completes hamount
  have hok := sortOk_of_reaches hamount sorting
  have hfit : ∀ i ∈ s.qsorts.map Prod.snd, memsize / blocks * (i + 1) ≤ w.length := by
    intro i hi
    obtain ⟨⟨t, b⟩, hq, rfl⟩ := List.mem_map.mp hi
    calc memsize / blocks * (b + 1) ≤ memsize / blocks * blocks :=
          Nat.mul_le_mul_left _ (hok.qsorts_lt hamount hq)
      _ = w.length := by rw [Nat.div_mul_cancel hdvd, hw]
  obtain ⟨w₁, qsorts⟩ := SortRun.exists hfit
  have hlen := qsorts.length.trans hw
  have hmap : TableReady blocks (s.map ++ [⟨1, 0⟩]) := hok.tableReady rfl
  have hdvd' : 2 ^ (j + 1) ∣ memsize := hblocks ▸ hdvd
  obtain ⟨w₂, rounds⟩ := RoundsRun.exists (w := w₁) (Nat.succ_pos amount) hdvd' hlen
    (hblocks ▸ hmap)
  have hslices := hblocks ▸ hok.slicesSorted done qsorts hw
  obtain rfl := rounds.eq (Nat.succ_pos amount) hdvd' hlen (hblocks ▸ hmap)
  have htwo : 2 ∣ memsize := (Dvd.intro _ (pow_succ' 2 j).symm).trans hdvd'
  obtain ⟨w₃, last, _⟩ := merge_halves htwo (hslices.roundsResult hdvd').1
  exact ⟨w₃, .mk hcounter sorting done qsorts rfl (hblocks ▸ rounds) last⟩

end OsaspLabs.SortIndex
