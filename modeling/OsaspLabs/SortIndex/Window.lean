import Mathlib.Data.List.Nodup
import OsaspLabs.SortIndex.Merge

/-! # Sorting one window of LAB_6

A window is sorted slice by slice and then merged in rounds. Each `qsort` and each `merge`
is one step here; the threads choose their order. -/

namespace OsaspLabs.SortIndex

variable {τ : Type*} [LinearOrder τ]

/-- `qsort` leaves some permutation of the slice in the order of `compare`. -/
def Qsorted (v v' : Window τ) : Prop := v'.Perm v ∧ v'.Pairwise fun a b => compare a b ≤ 0

/-- Sorting the slices `is` of length `n` one after the other. -/
inductive SortRun (n : ℕ) : List ℕ → Window τ → Window τ → Prop
  | nil (w : Window τ) : SortRun n [] w w
  | cons {i : ℕ} {is : List ℕ} {v w w' : Window τ} (fits : n * (i + 1) ≤ w.length)
      (qsort : Qsorted (slice n i w) v) (rest : SortRun n is (setSlice n i v w) w') :
      SortRun n (i :: is) w w'

/-- The calls of `merge` in one round, in the order `is`. -/
def mergeAll (memsize B : ℕ) : List ℕ → Window τ → Option (Window τ)
  | [], w => some w
  | i :: is, w => (merge memsize B i w).bind (mergeAll memsize B is)

/-- `while (BLOCKS > 4)`: the round with `BLOCKS = B` merges in the order `orders B`. -/
def mergePhase (memsize : ℕ) (orders : ℕ → List ℕ) (BLOCKS : ℕ) (w : Window τ) :
    Option (Window τ) :=
  if 4 < BLOCKS then
    (mergeAll memsize (BLOCKS / 2) (orders (BLOCKS / 2)) w).bind
      (mergePhase memsize orders (BLOCKS / 2))
  else some w
termination_by BLOCKS

/-- The merges of a window: the rounds and the last merge of the main thread. -/
def mergeWindow (memsize blocks : ℕ) (orders : ℕ → List ℕ) (w : Window τ) :
    Option (Window τ) :=
  (mergePhase memsize orders (2 * blocks) w).bind (merge memsize 2 0)

/-- The even block numbers below `B`. -/
def evens (B : ℕ) : List ℕ := (List.range (B / 2)).map (2 * ·)

/-- Each round merges every even block number below its `BLOCKS` once. -/
def ValidOrders (blocks : ℕ) (orders : ℕ → List ℕ) : Prop :=
  ∀ B, 4 ≤ B → B ∣ blocks → (orders B).Perm (evens B)

/-! ## The sorted slices -/

theorem Qsorted.sorted {v v' : Window τ} (h : Qsorted v v') : Sorted v' :=
  h.2.imp compare_le_zero_iff.mp

theorem SortRun.length {n : ℕ} {is : List ℕ} {w w' : Window τ} (h : SortRun n is w w') :
    w'.length = w.length := by
  induction h with
  | nil => rfl
  | cons fits qsort _ ih =>
      exact ih.trans (length_setSlice fits (qsort.1.length_eq.trans (length_slice fits)))

theorem SortRun.perm {n : ℕ} {is : List ℕ} {w w' : Window τ} (h : SortRun n is w w') :
    w'.Perm w := by
  induction h with
  | nil => exact .refl _
  | cons _ qsort _ ih => exact ih.trans (setSlice_perm qsort.1)

/-- A sorted slice stays sorted, and every slice that was sorted is so at the end. -/
theorem SortRun.sorted {n j : ℕ} {is : List ℕ} {w w' : Window τ} (h : SortRun n is w w')
    (hj : j ∈ is ∨ Sorted (slice n j w)) : Sorted (slice n j w') := by
  induction h with
  | nil => exact hj.resolve_left List.not_mem_nil
  | @cons i is v w w' fits qsort _ ih =>
      have hv := qsort.1.length_eq.trans (length_slice fits)
      apply ih
      by_cases hij : i = j
      · subst hij
        right
        rw [slice_setSlice_self fits hv]
        exact qsort.sorted
      · rcases hj with hj | hj
        · exact .inl ((List.mem_cons.mp hj).resolve_left (Ne.symm hij))
        · right
          rw [slice_setSlice_of_ne hij fits hv]
          exact hj

/-! ## One round -/

/-- The window consists of `B` sorted slices. -/
structure SlicesSorted (memsize B : ℕ) (w : Window τ) : Prop where
  length : w.length = memsize
  sorted : ∀ i < B, Sorted (slice (memsize / B) i w)

theorem mem_evens {B i : ℕ} : i ∈ evens B ↔ ∃ p < B / 2, i = 2 * p := by
  simp [evens, eq_comm]

theorem nodup_evens (B : ℕ) : (evens B).Nodup :=
  List.Nodup.map (fun _ _ h => Nat.eq_of_mul_eq_mul_left Nat.two_pos h) List.nodup_range

/-- A round in which every call has its two slices rewrites these pairs of slices. -/
theorem mergeAll_eq {memsize B : ℕ} {ps : List ℕ} {w : Window τ}
    (h : ∀ p ∈ ps, 2 * (memsize / B) * (p + 1) ≤ w.length) :
    mergeAll memsize B (ps.map (2 * ·)) w =
      some (updateSlices (2 * (memsize / B)) (mergeHalves (memsize / B)) ps w) := by
  induction ps generalizing w with
  | nil => rfl
  | cons p ps ih =>
      have hfit := h p List.mem_cons_self
      have hlen := length_updateSlice (length_mergeHalves (memsize / B)) hfit
      rw [List.map_cons, mergeAll, merge_pair hfit, Option.bind_some,
        ih fun q hq => hlen ▸ h q (List.mem_cons_of_mem p hq)]
      rfl

/-- What every round with `BLOCKS = 2 * C` computes. -/
def mergePairs (memsize C : ℕ) (w : Window τ) : Window τ :=
  updateSlices (2 * (memsize / (2 * C))) (mergeHalves (memsize / (2 * C))) (List.range C) w

theorem two_mul_div {memsize C : ℕ} (hdvd : 2 * C ∣ memsize) :
    2 * (memsize / (2 * C)) = memsize / C := by
  obtain ⟨n, rfl⟩ := hdvd
  rcases Nat.eq_zero_or_pos C with rfl | hC
  · simp
  · rw [Nat.mul_div_cancel_left n (by omega), mul_comm 2 C, mul_assoc,
      Nat.mul_div_cancel_left _ hC]

theorem pair_end_le {memsize C p : ℕ} (hdvd : 2 * C ∣ memsize) (hp : p < C) :
    2 * (memsize / (2 * C)) * (p + 1) ≤ memsize := by
  have hC : C ∣ memsize := (Nat.dvd_mul_left C 2).trans hdvd
  rw [two_mul_div hdvd]
  calc memsize / C * (p + 1) ≤ memsize / C * C := Nat.mul_le_mul_left _ hp
    _ = memsize := Nat.div_mul_cancel hC

theorem pairs_fit {α : Type*} {memsize C : ℕ} {w : List α} (hdvd : 2 * C ∣ memsize)
    (hw : w.length = memsize) :
    ∀ p ∈ List.range C, 2 * (memsize / (2 * C)) * (p + 1) ≤ w.length := fun _ hp =>
  (pair_end_le hdvd (List.mem_range.mp hp)).trans hw.ge

theorem pairs_length {memsize C : ℕ} (hdvd : 2 * C ∣ memsize) :
    2 * (memsize / (2 * C)) * C = memsize := by
  rw [two_mul_div hdvd, Nat.div_mul_cancel ((Nat.dvd_mul_left C 2).trans hdvd)]

/-- The order of the merges of one round does not matter. -/
theorem mergeAll_eq_mergePairs {memsize C : ℕ} {order : List ℕ} {w : Window τ}
    (hdvd : 2 * C ∣ memsize) (hw : w.length = memsize) (horder : order.Perm (evens (2 * C))) :
    mergeAll memsize (2 * C) order w = some (mergePairs memsize C w) := by
  have hhalf : 2 * C / 2 = C := Nat.mul_div_cancel_left C Nat.two_pos
  obtain ⟨ps, hps, rfl⟩ : ∃ ps : List ℕ, ps.Perm (List.range C) ∧ ps.map (2 * ·) = order := by
    refine ⟨order.map (· / 2), ?_, ?_⟩
    · have hmap := horder.map (· / 2)
      rw [evens, hhalf, List.map_map] at hmap
      have hid : (fun i => i / 2) ∘ (fun i => 2 * i) = id :=
        funext fun i => Nat.mul_div_cancel_left i Nat.two_pos
      rwa [hid, List.map_id] at hmap
    · rw [List.map_map]
      refine (List.map_congr_left fun i hi => ?_).trans (List.map_id order)
      obtain ⟨p, _, rfl⟩ := mem_evens.mp (horder.mem_iff.mp hi)
      simp
  have hfit' : ∀ p ∈ List.range C, 2 * (memsize / (2 * C)) * (p + 1) ≤ w.length :=
    pairs_fit hdvd hw
  have hfit : ∀ p ∈ ps, 2 * (memsize / (2 * C)) * (p + 1) ≤ w.length := fun p hp =>
    hfit' p (hps.mem_iff.mp hp)
  have hsize := pairs_length hdvd
  have hlen := length_mergeHalves (τ := τ) (memsize / (2 * C))
  rw [mergeAll_eq hfit, mergePairs]
  congr 1
  apply ext_slices (n := 2 * (memsize / (2 * C))) (B := C)
  · rw [length_updateSlices hlen hfit, hw, hsize]
  · rw [length_updateSlices hlen hfit', hw, hsize]
  · intro i _
    rw [slice_updateSlices hlen (hps.nodup_iff.mpr List.nodup_range) hfit,
      slice_updateSlices hlen List.nodup_range hfit']
    simp only [hps.mem_iff]

theorem length_mergePairs {memsize C : ℕ} {w : Window τ} (hdvd : 2 * C ∣ memsize)
    (hw : w.length = memsize) : (mergePairs memsize C w).length = memsize :=
  (length_updateSlices (length_mergeHalves _) (pairs_fit hdvd hw)).trans hw

theorem slice_mergePairs {memsize C i : ℕ} {w : Window τ} (hdvd : 2 * C ∣ memsize)
    (hw : w.length = memsize) (hi : i < C) :
    slice (memsize / C) i (mergePairs memsize C w) =
      mergeHalves (memsize / (2 * C)) (slice (memsize / C) i w) := by
  have hslice := slice_updateSlices (j := i) (length_mergeHalves (τ := τ) (memsize / (2 * C)))
    List.nodup_range (pairs_fit hdvd hw)
  rw [if_pos (List.mem_range.mpr hi), two_mul_div hdvd] at hslice
  rw [mergePairs, two_mul_div hdvd]
  exact hslice

theorem mergePairs_perm {memsize C : ℕ} {w : Window τ} (hdvd : 2 * C ∣ memsize)
    (hw : w.length = memsize) : (mergePairs memsize C w).Perm w := by
  have hsize : memsize = memsize / C * C :=
    (Nat.div_mul_cancel ((Nat.dvd_mul_left C 2).trans hdvd)).symm
  apply perm_of_slices ((length_mergePairs hdvd hw).trans hsize) (hw.trans hsize)
  intro i hi
  rw [slice_mergePairs hdvd hw hi]
  exact perm_mergeHalves _ _

/-- A round makes sorted slices of twice the length. -/
theorem SlicesSorted.mergePairs {memsize C : ℕ} {w : Window τ} (hdvd : 2 * C ∣ memsize)
    (h : SlicesSorted memsize (2 * C) w) : SlicesSorted memsize C (mergePairs memsize C w) := by
  refine ⟨length_mergePairs hdvd h.length, fun i hi => ?_⟩
  have hfirst := h.sorted (2 * i) (by omega)
  have hsecond := h.sorted (2 * i + 1) (by omega)
  have hend : memsize / (2 * C) * (2 * i + 1) ≤ w.length := by
    have hpair := pair_end_le hdvd hi
    have hmono : memsize / (2 * C) * (2 * i + 1) ≤ 2 * (memsize / (2 * C)) * (i + 1) := by
      have heq : 2 * (memsize / (2 * C)) * (i + 1) = memsize / (2 * C) * (2 * i + 2) := by ring
      rw [heq]
      exact Nat.mul_le_mul_left _ (Nat.le_succ _)
    exact h.length ▸ hmono.trans hpair
  have hlen := length_slice hend
  rw [slice_mergePairs hdvd h.length hi, ← two_mul_div hdvd, slice_two_mul]
  apply sorted_mergeHalves
  · rw [List.take_append_of_le_length hlen.ge, List.take_of_length_le hlen.le]
    exact hfirst
  · rw [List.drop_append_of_le_length hlen.ge, List.drop_of_length_le hlen.le, List.nil_append]
    exact hsecond

/-! ## All rounds -/

/-- The window after the rounds with `BLOCKS = 2 ^ (j + 1)`, and so on down to 4. -/
def roundsResult (memsize : ℕ) : ℕ → Window τ → Window τ
  | 0, w => w
  | j + 1, w => roundsResult memsize j (mergePairs memsize (2 ^ (j + 1)) w)

/-- The rounds succeed and their result does not depend on the orders. -/
theorem mergePhase_eq {memsize blocks j : ℕ} {orders : ℕ → List ℕ} {w : Window τ}
    (hvalid : ValidOrders blocks orders) (hblocks : 2 ^ (j + 1) ∣ blocks)
    (hdvd : blocks ∣ memsize) (hw : w.length = memsize) :
    mergePhase memsize orders (2 * 2 ^ (j + 1)) w = some (roundsResult memsize j w) := by
  induction j generalizing w with
  | zero => rw [mergePhase, if_neg (by decide), roundsResult]
  | succ j ih =>
      have hpow : 2 ^ (j + 2) = 2 * 2 ^ (j + 1) := pow_succ' 2 (j + 1)
      have hbig : 4 ≤ 2 ^ (j + 2) := by
        have := Nat.one_le_two_pow (n := j)
        rw [hpow, pow_succ']
        omega
      have horder := hvalid (2 ^ (j + 2)) hbig hblocks
      rw [hpow] at horder hblocks hbig
      rw [mergePhase, if_pos (by omega), hpow, Nat.mul_div_cancel_left _ Nat.two_pos,
        mergeAll_eq_mergePairs (hblocks.trans hdvd) hw horder, Option.bind_some,
        ih ((Nat.dvd_mul_left _ 2).trans hblocks) (length_mergePairs (hblocks.trans hdvd) hw)]
      rfl

theorem SlicesSorted.roundsResult {memsize j : ℕ} {w : Window τ} (hdvd : 2 ^ (j + 1) ∣ memsize)
    (h : SlicesSorted memsize (2 ^ (j + 1)) w) :
    SlicesSorted memsize 2 (roundsResult memsize j w) ∧ (roundsResult memsize j w).Perm w := by
  induction j generalizing w with
  | zero => exact ⟨h, .refl w⟩
  | succ j ih =>
      rw [pow_succ'] at hdvd h
      obtain ⟨hsorted, hperm⟩ := ih ((Nat.dvd_mul_left _ 2).trans hdvd) (h.mergePairs hdvd)
      exact ⟨hsorted, hperm.trans (mergePairs_perm hdvd h.length)⟩

/-- The last merge joins the two halves. -/
theorem merge_halves {memsize : ℕ} {w : Window τ} (hdvd : 2 ∣ memsize)
    (h : SlicesSorted memsize 2 w) :
    ∃ w', merge memsize 2 0 w = some w' ∧ Sorted w' ∧ w'.Perm w := by
  have hdvd' : 2 * 1 ∣ memsize := hdvd
  have hfit : 2 * (memsize / 2) * (0 + 1) ≤ w.length :=
    h.length ▸ pair_end_le hdvd' Nat.zero_lt_one
  have hmerge := merge_pair (p := 0) hfit
  have hsorted := (SlicesSorted.mergePairs hdvd' h).sorted 0 Nat.zero_lt_one
  have hone : mergePairs memsize 1 w =
      updateSlice (2 * (memsize / 2)) (mergeHalves (memsize / 2)) 0 w := rfl
  refine ⟨_, hmerge, ?_, hone ▸ mergePairs_perm hdvd' h.length⟩
  rw [← hone]
  have hall : slice (memsize / 1) 0 (mergePairs memsize 1 w) = mergePairs memsize 1 w := by
    have hlen := length_mergePairs hdvd' h.length
    simp [slice, List.take_of_length_le hlen.le]
  exact hall ▸ hsorted

/-- Whatever slices are sorted in whatever order, as long as each is sorted, and in
whatever order each round merges, the window ends as one sorted permutation. -/
theorem window_sorted {memsize blocks k : ℕ} {sorts : List ℕ} {orders : ℕ → List ℕ}
    {w w₁ : Window τ} (hk : 1 ≤ k) (hblocks : blocks = 2 ^ k) (hdvd : blocks ∣ memsize)
    (hw : w.length = memsize) (hsorts : ∀ i < blocks, i ∈ sorts)
    (hrun : SortRun (memsize / blocks) sorts w w₁) (hvalid : ValidOrders blocks orders) :
    ∃ w₂, mergeWindow memsize blocks orders w₁ = some w₂ ∧ Sorted w₂ ∧ w₂.Perm w ∧
      ∀ orders', ValidOrders blocks orders' →
        mergeWindow memsize blocks orders' w₁ = some w₂ := by
  obtain ⟨j, rfl⟩ : ∃ j, k = j + 1 := ⟨k - 1, by omega⟩
  subst hblocks
  have hlen : w₁.length = memsize := hrun.length.trans hw
  have hslices : SlicesSorted memsize (2 ^ (j + 1)) w₁ :=
    ⟨hlen, fun i hi => hrun.sorted (.inl (hsorts i hi))⟩
  obtain ⟨hhalves, hrounds⟩ := hslices.roundsResult hdvd
  have htwo : 2 ∣ memsize := (Dvd.intro _ (pow_succ' 2 j).symm).trans hdvd
  obtain ⟨w₂, hmerge, hsorted, hperm⟩ := merge_halves htwo hhalves
  have hwindow : ∀ orders', ValidOrders (2 ^ (j + 1)) orders' →
      mergeWindow memsize (2 ^ (j + 1)) orders' w₁ = some w₂ := by
    intro orders' hvalid'
    rw [mergeWindow, mergePhase_eq hvalid' dvd_rfl hdvd hlen, Option.bind_some, hmerge]
  exact ⟨w₂, hwindow orders hvalid, hsorted, hperm.trans (hrounds.trans hrun.perm), hwindow⟩

theorem validOrders_evens (blocks : ℕ) : ValidOrders blocks evens := fun _ _ _ => .refl _

/-- A result of `qsort` exists. -/
theorem Qsorted.exists (v : Window τ) : ∃ v', Qsorted v v' := by
  refine ⟨v.mergeSort atMost, List.mergeSort_perm v atMost, ?_⟩
  exact (List.pairwise_mergeSort atMost_trans atMost_total v).imp fun h =>
    compare_le_zero_iff.mpr (by simpa [atMost] using h)

theorem SortRun.exists {n : ℕ} {is : List ℕ} {w : Window τ}
    (h : ∀ i ∈ is, n * (i + 1) ≤ w.length) : ∃ w', SortRun n is w w' := by
  induction is generalizing w with
  | nil => exact ⟨w, .nil w⟩
  | cons i is ih =>
      have hfit := h i List.mem_cons_self
      obtain ⟨v, hv⟩ := Qsorted.exists (slice n i w)
      have hlen := length_setSlice hfit (hv.1.length_eq.trans (length_slice hfit))
      obtain ⟨w', hrest⟩ := ih (w := setSlice n i v w) fun j hj =>
        hlen ▸ h j (List.mem_cons_of_mem i hj)
      exact ⟨w', .cons hfit hv hrest⟩

/-- A window of 16 records in falling order, one record in each of 16 blocks. -/
def fallingWindow : Window ℕ := (List.range 16).map fun i => ⟨15 - i, UInt64.ofNat i⟩

theorem window_sorted_falling :
    ∃ w₁ w, SortRun 1 (List.range 16) fallingWindow w₁ ∧
      mergeWindow 16 16 evens w₁ = some w ∧ Sorted w ∧ w.Perm fallingWindow := by
  have hfit : ∀ i ∈ List.range 16, 16 / 16 * (i + 1) ≤ fallingWindow.length := by
    intro i hi
    have hlen : fallingWindow.length = 16 := rfl
    have hlt := List.mem_range.mp hi
    omega
  obtain ⟨w₁, hrun⟩ := SortRun.exists hfit
  obtain ⟨w, hmerge, hsorted, hperm, _⟩ := window_sorted (by decide : 1 ≤ 4) (by decide)
    (by decide) (by rfl) (fun i hi => List.mem_range.mpr hi) hrun (validOrders_evens 16)
  exact ⟨w₁, w, hrun, hmerge, hsorted, hperm⟩

end OsaspLabs.SortIndex
