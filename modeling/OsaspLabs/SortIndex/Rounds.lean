import Mathlib.Data.Set.BooleanAlgebra
import Mathlib.Order.CompletePartialOrder
import Mathlib.Order.Interval.Set.Basic
import OsaspLabs.SortIndex.MergeRound

/-! # The merge rounds of LAB_6

With all threads in step at the barriers, the rounds of a window have `BLOCKS = blocks`, half of
it and so on down to 4. Each round begins with the table that the round before has left. -/

namespace OsaspLabs.SortIndex

open Runs

/-- The round with `BLOCKS = B` begins, and thread 0 is about to free the blocks of `map`. -/
inductive RoundStarts (threads blocks : ℕ) : ℕ → List BlocksMap → Prop
  /-- The table has the numbers that `createThreads` wrote; `behind` is the memory behind it. -/
  | first {table : List BlocksMap} {behind : BlocksMap} (size : table.length = blocks)
      (entries : ∀ (i : ℕ) (e : BlocksMap), table[i]? = some e → e.block = i)
      (busy : behind.isBusy = 1) : RoundStarts threads blocks blocks (table ++ [behind])
  | next {B : ℕ} {map : List BlocksMap} {s : RoundState} (start : RoundStarts threads blocks B map)
      (run : Reaches (roundStep B) anything (roundInit threads (resetMap B map)) s)
      (done : s.Complete) (more : 4 < B) : RoundStarts threads blocks (B / 2) s.map

/-- The records that `merge` writes. -/
def mergeSlice (memsize B no : ℕ) : Set ℕ :=
  Set.Ico (memsize / B * no) (memsize / B * (no + 2))

/-- How often block `b` has been claimed: it is held or merged after that. -/
def RoundState.claimed (s : RoundState) (b : ℕ) : ℕ :=
  s.merged b + tally (RoundPc.holds b) s.pcs

/-- What holds at any time in a round. -/
structure RoundSafe (memsize B : ℕ) (s : RoundState) : Prop where
  claimed : ∀ b < B, s.claimed b ≤ 1
  started : ∀ (t i : ℕ) (sav : ℤ), s.pcs[t]? = some (.merge i sav) → sav = i ∧ i < B ∧ i % 2 = 0
  merged : ∀ p ∈ s.merges, p.2 < B ∧ p.2 % 2 = 0
  inside : ∀ (t i : ℕ) (sav : ℤ), s.pcs[t]? = some (.merge i sav) →
    ∀ r ∈ mergeSlice memsize B sav.toNat, r < memsize
  disjoint : ∀ (t u i j : ℕ) (sav sav' : ℤ), t ≠ u → s.pcs[t]? = some (.merge i sav) →
    s.pcs[u]? = some (.merge j sav') →
      Disjoint (mergeSlice memsize B sav.toNat) (mergeSlice memsize B sav'.toNat)

/-- What holds when all threads have come to the end of a round. -/
structure RoundDone (B : ℕ) (s : RoundState) : Prop where
  claimed : ∀ b < B, b % 2 = 0 → s.claimed b = 1
  merged : ∀ b < B, b % 2 = 0 → s.merged b = 1 ∧ ∃! t, (t, b) ∈ s.merges

/-! ## The rounds of a window -/

/-- A round begins with the table ready, and `BLOCKS` is a power of two. -/
theorem RoundStarts.ready {threads k B : ℕ} {map : List BlocksMap} (hthreads : 0 < threads)
    (hk : 2 ≤ k) (h : RoundStarts threads (2 ^ k) B map) :
    TableReady B map ∧ ∃ j, 2 ≤ j ∧ j ≤ k ∧ B = 2 ^ j := by
  induction h with
  | first size entries busy =>
      refine ⟨⟨by simp [size], fun i hi e he => ?_, ⟨_, by simp [← size], busy⟩⟩,
        k, hk, Nat.le_refl k, rfl⟩
      rw [List.getElem?_append_left (by rwa [size])] at he
      exact entries i e he
  | @next B map s _ run done more ih =>
      obtain ⟨hready, j, hj, hjk, rfl⟩ := ih
      obtain ⟨j, rfl⟩ : ∃ i, j = i + 2 := ⟨j - 2, by omega⟩
      cases j with
      | zero => exact absurd more (by decide)
      | succ j =>
          have hpow : 2 ^ (j + 1 + 2) = 2 * 2 ^ (j + 2) := pow_succ' 2 (j + 2)
          have heven : 2 ^ (j + 2) % 2 = 0 := by
            rw [pow_succ']
            exact Nat.mul_mod_right 2 _
          rw [hpow] at hready run ⊢
          rw [Nat.mul_div_cancel_left _ Nat.two_pos]
          have hok := roundOk_of_reaches hthreads hready run
          exact ⟨hok.ready done heven (Nat.two_pow_pos _), j + 2, by omega, by omega, rfl⟩

/-! ## Claims -/

/-- Only `map[i].isBusy = 1` claims a block. -/
theorem RoundOk.claimed_step {B t : ℕ} {s s' : RoundState} (h : RoundOk B s)
    (hstep : roundStep B s t = some s') {b : ℕ} (hb : b < B) :
    s'.claimed b = s.claimed b + if s.pcs[t]? = some (.write b) then 1 else 0 := by
  have hnow := h.once b hb
  have hnext := (h.step hstep).once b hb
  unfold RoundState.claimed
  rw [hnow, hnext]
  unfold roundStep at hstep
  split at hstep
  · cases hstep
  · rename_i pc hpc
    rw [hpc]
    cases pc with
    | write i =>
        obtain ⟨_, _, hlt, hfree⟩ := h.pcs t _ hpc
        cases hstep
        have hset : Busy (setBusy s.map i) b ↔ b = i ∨ Busy s.map b :=
          busy_setBusy (Nat.lt_trans hlt h.size)
        by_cases hbi : i = b
        · subst hbi
          simp [hset, hfree]
        · simp [hset, hbi, Ne.symm hbi]
    | head | unlock | merge =>
        cases hstep
        simp only [Option.some.injEq, reduceCtorEq, if_false, Nat.add_zero]
        rfl
    | lock i | read i | save i =>
        simp only [roundStepAt] at hstep
        split at hstep <;> cases hstep
        simp only [Option.some.injEq, reduceCtorEq, if_false, Nat.add_zero]
        rfl
    | done => cases hstep

/-- Two threads never hold the same block. -/
theorem RoundOk.merges_ne {B t u i j : ℕ} {sav sav' : ℤ} {s : RoundState} (h : RoundOk B s)
    (htu : t ≠ u) (ht : s.pcs[t]? = some (.merge i sav)) (hu : s.pcs[u]? = some (.merge j sav')) :
    i ≠ j := by
  rintro rfl
  obtain ⟨_, _, rfl, hlt⟩ := h.pcs t _ ht
  obtain ⟨_, _, rfl, _⟩ := h.pcs u _ hu
  have htwo := add_le_tally (RoundPc.holds i) htu ht hu
  have honce := h.once i hlt
  have hle := Bool.toNat_le (decide (Busy s.map i))
  simp only [RoundPc.holds, if_true] at htwo
  omega

/-! ## Slices -/

theorem mergeSlice_inside {memsize B no r : ℕ} (hno : no + 2 ≤ B)
    (hr : r ∈ mergeSlice memsize B no) : r < memsize :=
  calc r < memsize / B * (no + 2) := hr.2
    _ ≤ memsize / B * B := Nat.mul_le_mul_left _ hno
    _ ≤ memsize := Nat.div_mul_le_self memsize B

theorem mergeSlice_disjoint {memsize B i j : ℕ} (hij : i + 2 ≤ j ∨ j + 2 ≤ i) :
    Disjoint (mergeSlice memsize B i) (mergeSlice memsize B j) := by
  refine Set.disjoint_left.mpr fun r hi hj => ?_
  rcases hij with hle | hle
  · exact absurd (hi.2.trans_le (Nat.mul_le_mul_left _ hle)) (Nat.not_lt_of_le hj.1)
  · exact absurd (hj.2.trans_le (Nat.mul_le_mul_left _ hle)) (Nat.not_lt_of_le hi.1)

/-- `merge` writes nothing but its slice. -/
theorem merge_writes {τ : Type*} [LinearOrder τ] {memsize B no : ℕ} {w : Window τ}
    (hw : w.length = memsize) (hno : no + 2 ≤ B) :
    ∃ w', merge memsize B no w = some w' ∧
      ∀ r, r ∉ mergeSlice memsize B no → w'[r]? = w[r]? := by
  have hfit : memsize / B * (no + 2) ≤ w.length := by
    rw [hw]
    exact (Nat.mul_le_mul_left _ hno).trans (Nat.div_mul_le_self memsize B)
  have hlen1 : (slice (memsize / B) no w).length = memsize / B :=
    length_slice ((Nat.mul_le_mul_left _ (Nat.le_succ _)).trans hfit)
  have hlen2 : (slice (memsize / B) (no + 1) w).length = memsize / B := length_slice hfit
  have hend : memsize / B * (no + 2) = memsize / B * no + (memsize / B + memsize / B) := by ring
  refine ⟨_, merge_eq hfit, fun r hr => ?_⟩
  rw [getElem?_writeAt (by rw [List.length_merge, hlen1, hlen2, ← hend]; exact hfit),
    List.length_merge, hlen1, hlen2, ← hend]
  exact if_neg hr

/-! ## One round -/

theorem RoundOk.safe {B : ℕ} {s : RoundState} (h : RoundOk B s) (hB : B % 2 = 0) (memsize : ℕ) :
    RoundSafe memsize B s where
  claimed b hb := (h.once b hb).trans_le (Bool.toNat_le _)
  started t i sav ht := by
    obtain ⟨heven, _, hsav, hlt⟩ := h.pcs t _ ht
    exact ⟨hsav, hlt, heven⟩
  merged p hp := by
    have hlt := h.merges p hp
    refine ⟨hlt, h.even p.2 hlt ?_⟩
    have hpos : 0 < s.merged p.2 := List.count_pos_iff.mpr (List.mem_map_of_mem hp)
    have honce := h.once p.2 hlt
    by_contra hfree
    rw [decide_eq_false hfree, Bool.toNat_false] at honce
    omega
  inside t i sav ht r hr := by
    obtain ⟨heven, _, rfl, hlt⟩ := h.pcs t _ ht
    exact mergeSlice_inside (by omega) hr
  disjoint t u i j sav sav' htu ht hu := by
    have hne := h.merges_ne htu ht hu
    obtain ⟨hi, _, rfl, _⟩ := h.pcs t _ ht
    obtain ⟨hj, _, rfl, _⟩ := h.pcs u _ hu
    exact mergeSlice_disjoint (by omega)

theorem RoundOk.roundDone {C : ℕ} {s : RoundState} (h : RoundOk (2 * C) s) (hdone : s.Complete) :
    RoundDone (2 * C) s := by
  have hmerged : ∀ b < 2 * C, b % 2 = 0 → s.merged b = 1 := by
    intro b hb heven
    have hmem : b ∈ evens (2 * C) := mem_evens.mpr ⟨b / 2, by omega, by omega⟩
    rw [RoundState.merged, (h.merges_perm hdone).count_eq, (nodup_evens _).count, if_pos hmem]
  refine ⟨fun b hb heven => ?_, fun b hb heven => ⟨hmerged b hb heven, ?_⟩⟩
  · have honce := h.once b hb
    rwa [decide_eq_true (h.passed hdone b hb hb heven), Bool.toNat_true] at honce
  · have hmem : b ∈ s.merges.map Prod.snd :=
      List.count_pos_iff.mp (by rw [← RoundState.merged, hmerged b hb heven]; decide)
    obtain ⟨⟨t, b⟩, hp, rfl⟩ := List.mem_map.mp hmem
    refine ⟨t, hp, fun u hu => ?_⟩
    -- two entries for one block would be two merges of it
    by_contra hne
    have hsub : List.Subperm [(u, b), (t, b)] s.merges :=
      List.subperm_of_subset (by simpa using hne) (by simp [hu, hp])
    have hcount := hsub.countP_le ((· == b) ∘ Prod.snd)
    have hone := hmerged b hb heven
    rw [RoundState.merged, List.count, List.countP_map] at hone
    simp [hone] at hcount

/-- In every round each even block is claimed by one thread and merged once, no other block is
merged, and merges that run at the same time write different records of the window. Every round
can be brought to its end. A block is claimed by writing its entry, and in no other way. -/
theorem rounds_merge_once {τ : Type*} [LinearOrder τ] {threads memsize k B : ℕ}
    {map : List BlocksMap} {s : RoundState} (hthreads : 0 < threads) (hk : 4 ≤ k)
    (hstart : RoundStarts threads (2 ^ k) B map)
    (hrun : Reaches (roundStep B) anything (roundInit threads (resetMap B map)) s) :
    RoundSafe memsize B s ∧
    (s.Complete → RoundDone B s) ∧
    (∃ s', Reaches (roundStep B) anything s s' ∧ s'.Complete) ∧
    (∀ (w : Window τ) (no : ℕ), w.length = memsize → no < B → no % 2 = 0 →
      ∃ w', merge memsize B no w = some w' ∧
        ∀ r, r ∉ mergeSlice memsize B no → w'[r]? = w[r]?) ∧
    ∀ t s', roundStep B s t = some s' → ∀ b < B,
      s'.claimed b = s.claimed b + if s.pcs[t]? = some (.write b) then 1 else 0 := by
  obtain ⟨hready, j, hj, _, rfl⟩ := hstart.ready hthreads (by omega)
  obtain ⟨j, rfl⟩ : ∃ i, j = i + 1 := ⟨j - 1, by omega⟩
  have hpow : 2 ^ (j + 1) = 2 * 2 ^ j := pow_succ' 2 j
  rw [hpow] at hready hrun ⊢
  have hok := roundOk_of_reaches hthreads hready hrun
  have hcomplete := exists_final (I := RoundOk (2 * 2 ^ j)) (RoundState.left (2 * 2 ^ j))
    (fun _ _ _ hu hstep => hu.step hstep) (fun _ hu hdone => hu.progress hdone) hok
  exact ⟨hok.safe (Nat.mul_mod_right 2 _) memsize, hok.roundDone, hcomplete,
    fun w no hw hno heven => merge_writes hw (by omega),
    fun _ _ hstep _ hb => hok.claimed_step hstep hb⟩

/-- The first round of 16 blocks, with 9 threads. -/
theorem rounds_merge_once_first :
    ∃ s, Reaches (roundStep 16) anything
      (roundInit 9 (resetMap 16 (initMap 8 16 ++ [⟨1, 0⟩]))) s ∧ s.Complete := by
  have hstart : RoundStarts 9 (2 ^ 4) 16 (initMap 8 16 ++ [⟨1, 0⟩]) :=
    .first (by decide) (fun _ _ => get_initMap) rfl
  obtain ⟨_, _, hcomplete, _⟩ :=
    @rounds_merge_once ℕ _ 9 32 4 16 _ _ (by decide) (by decide) hstart .refl
  exact hcomplete

end OsaspLabs.SortIndex
