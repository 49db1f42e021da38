import Mathlib.Data.Int.ConditionallyCompleteOrder
import Mathlib.Order.ConditionallyCompleteLattice.Basic
import OsaspLabs.SortIndex.Rounds
import OsaspLabs.SortIndex.Windows

/-! # The records that LAB_6 touches

Every window is sorted as if it had `memsize` records, also the last one. The threads are in
step at the barriers here, and the slot behind the table reads as busy. -/

namespace OsaspLabs.SortIndex

open Runs

/-- `w` slices of `memsize / B` records each, from slice `no` on, in the arithmetic of
`size_t`. -/
def slices (memsize B no w : ℤ) : Set ℤ :=
  Set.Ico (toSizeT (memsize.tdiv B * no))
    (toSizeT (memsize.tdiv B * no) + w * toSizeT (memsize.tdiv B))

/-- The records that `sortPhase` hands to `qsort` for one block. -/
def qsortTouches (memsize blocks no : ℤ) : Set ℤ := slices memsize blocks no 1

/-- The records that `merge` copies and writes. -/
def mergeTouches (memsize blocks no : ℤ) : Set ℤ := slices memsize blocks no 2

/-- The records that some thread touches in a window, by their index in the window. -/
inductive Touched (a : Arguments) : ℤ → Prop
  | qsort {s : SortState} {t b : ℕ} {r : ℤ}
      (run : Reaches (sortStep a.blocks.toNat) anything
        (sortInit a.threads.toNat a.blocks.toNat) s)
      (call : (t, b) ∈ s.qsorts) (mem : r ∈ qsortTouches a.memsize a.blocks b) : Touched a r
  | merge {B t i : ℕ} {map : List BlocksMap} {s : RoundState} {sav r : ℤ}
      (start : RoundStarts (a.threads.toNat + 1) a.blocks.toNat B map)
      (run : Reaches (roundStep B) anything
        (roundInit (a.threads.toNat + 1) (resetMap B map)) s)
      (call : s.pcs[t]? = some (.merge i sav)) (mem : r ∈ mergeTouches a.memsize B sav) :
      Touched a r
  /-- The last merge of the main thread. -/
  | last {r : ℤ} (mem : r ∈ mergeTouches a.memsize 2 0) : Touched a r

/-- The loop of `createThreads` comes to window `k`. -/
def Opened (memsize FILESIZE : ℤ) (k : ℕ) : Prop := ∀ i ≤ k, curSize memsize i < FILESIZE

/-- Only records of the file are touched. -/
def TouchesInside (a : Arguments) (FILESIZE : ℤ) : Prop :=
  ∀ (k : ℕ) (r : ℤ), Opened a.memsize FILESIZE k → Touched a r →
    curSize a.memsize k + r < FILESIZE

/-! ## Slices of a window -/

/-- All slices are taken from an even number of slices. -/
theorem Touched.slices {pageSize : ℤ} {a : Arguments} {r : ℤ} (hacc : Accepted pageSize a)
    (h : Touched a r) :
    ∃ C no w : ℤ, 0 < C ∧ 0 ≤ no ∧ 0 ≤ w ∧ no + w ≤ 2 * C ∧
      r ∈ slices a.memsize (2 * C) no w := by
  cases h with
  | @qsort s t b _ run call mem =>
      obtain ⟨n, hn, hblocks, hamount⟩ := hacc.even
      have hlt := (sortOk_of_reaches hamount run).qsorts_lt hamount call
      exact ⟨n, b, 1, by omega, by omega, by decide, by omega, hblocks ▸ mem⟩
  | @merge B t i map s sav _ start run call mem =>
      obtain ⟨k, hk, hpow, _⟩ := hacc.toNat
      rw [hpow] at start
      obtain ⟨hready, j, hj, _, rfl⟩ := start.ready (Nat.succ_pos _) (by omega)
      obtain ⟨heven, _, rfl, hlt⟩ := (roundOk_of_reaches (Nat.succ_pos _) hready run).pcs t _ call
      obtain ⟨j, rfl⟩ : ∃ i, j = i + 1 := ⟨j - 1, by omega⟩
      have hpos := Nat.two_pow_pos j
      rw [pow_succ'] at hlt mem
      refine ⟨(2 ^ j : ℕ), i, 2, by omega, by omega, by decide, by omega, ?_⟩
      rwa [Nat.cast_mul] at mem
  | last mem => exact ⟨1, 0, 2, by decide, by decide, by decide, by decide, mem⟩

/-- The slices of a window with `memsize` records end at an even record. -/
theorem slices_lt {memsize C no w r : ℤ} (hm : 0 < memsize) (hlong : memsize < 2 ^ 63)
    (hC : 0 < C) (hno : 0 ≤ no) (hw : 0 ≤ w) (hend : no + w ≤ 2 * C)
    (hr : r ∈ slices memsize (2 * C) no w) : r < 2 * (memsize / 2) := by
  have hdiv : memsize.tdiv (2 * C) = memsize / (2 * C) :=
    Int.tdiv_eq_ediv_of_nonneg (Int.le_of_lt hm)
  generalize hn : memsize / (2 * C) = n at hdiv
  have hn0 : 0 ≤ n := hn ▸ Int.ediv_nonneg (Int.le_of_lt hm) (by omega)
  have hall : 2 * (n * C) ≤ memsize := by
    calc 2 * (n * C) = n * (2 * C) := by ring
      _ ≤ memsize := hn ▸ Int.ediv_mul_le memsize (by omega)
  have hslice : n * no + w * n ≤ 2 * (n * C) := by
    calc n * no + w * n = n * (no + w) := by ring
      _ ≤ n * (2 * C) := Int.mul_le_mul_of_nonneg_left hend hn0
      _ = 2 * (n * C) := by ring
  have hstart : 0 ≤ n * no := Int.mul_nonneg hn0 hno
  have hsize : 0 ≤ w * n := Int.mul_nonneg hw hn0
  have hle : n ≤ memsize := hn ▸ Int.ediv_le_self _ (Int.le_of_lt hm)
  have hr := hr.2
  rw [hdiv, toSizeT_of_small hstart (by omega), toSizeT_of_small hn0 (by omega)] at hr
  omega

/-- With a window of -1 records nothing is touched. -/
theorem slices_neg_one {C no w : ℤ} (hC : 0 < C) : slices (-1) (2 * C) no w = ∅ := by
  have hdiv : (-1 : ℤ).tdiv (2 * C) = 0 := by
    rw [Int.neg_tdiv, Int.tdiv_eq_ediv_of_nonneg (by decide),
      Int.ediv_eq_zero_of_lt (by decide) (by omega), Int.neg_zero]
  simp [slices, hdiv, toSizeT]

/-- The last merge of a window with a negative number of records goes over the whole file. -/
theorem mergeTouches_of_neg {memsize r : ℤ} (hm : memsize ≤ -2) (hlong : -2 ^ 63 ≤ memsize)
    (h0 : 0 ≤ r) (hr : r < 2 ^ 63) : r ∈ mergeTouches memsize 2 0 := by
  have hle : memsize.tdiv 2 ≤ (-2 : ℤ).tdiv 2 := Int.tdiv_le_tdiv (by decide) hm
  have hge : (-2 ^ 63 : ℤ).tdiv 2 ≤ memsize.tdiv 2 := Int.tdiv_le_tdiv (by decide) hlong
  have hlow : (-2 ^ 63 : ℤ).tdiv 2 = -2 ^ 62 := by decide
  have hhigh : (-2 : ℤ).tdiv 2 = -1 := by decide
  have hsize : toSizeT (memsize.tdiv 2) = memsize.tdiv 2 + 2 ^ 64 := by
    rw [toSizeT]
    omega
  rw [mergeTouches, slices, hsize, Int.mul_zero]
  exact ⟨h0, by rw [toSizeT]; omega⟩

theorem mergeTouches_of_pos {memsize r : ℤ} (hm : 0 < memsize) (hlong : memsize < 2 ^ 63)
    (h0 : 0 ≤ r) (hr : r < 2 * (memsize / 2)) : r ∈ mergeTouches memsize 2 0 := by
  have hdiv : memsize.tdiv 2 = memsize / 2 := Int.tdiv_eq_ediv_of_nonneg (Int.le_of_lt hm)
  rw [mergeTouches, slices, hdiv, Int.mul_zero, toSizeT_of_small (n := memsize / 2) (by omega)
    (by omega)]
  exact ⟨h0, by rw [toSizeT]; omega⟩

/-! ## The end of the file -/

theorem fileSize_lt (size : ℤ) : fileSize size < 2 ^ 60 := by
  have hlt := Int.emod_lt_of_pos (size - 8) (by decide : (0 : ℤ) < 2 ^ 64)
  rw [fileSize, toSizeT]
  omega

theorem opened_iff {memsize FILESIZE : ℤ} {k : ℕ} (hm : 0 < memsize) :
    Opened memsize FILESIZE k ↔ k * memsize < FILESIZE := by
  refine ⟨fun h => curSize_eq memsize k ▸ h k (Nat.le_refl k), fun h i hi => ?_⟩
  have hle : i * memsize ≤ k * memsize :=
    Int.mul_le_mul_of_nonneg_right (by omega) (Int.le_of_lt hm)
  rw [curSize_eq]
  omega

/-- Every window but the last is full. -/
theorem end_le_of_ne_lastWindow {memsize FILESIZE : ℤ} {k : ℕ} (hm : 0 < memsize)
    (hk : k < lastWindow memsize FILESIZE) : (k + 1) * memsize ≤ FILESIZE := by
  have hle : (k + 1) * memsize ≤ lastWindow memsize FILESIZE * memsize :=
    Int.mul_le_mul_of_nonneg_right (by omega) (Int.le_of_lt hm)
  have hlast := lastWindow_lt hm FILESIZE
  omega

/-- The records of the last window. -/
theorem lastWindow_rest {memsize FILESIZE : ℤ} (hm : 0 < memsize) :
    (2 * (memsize / 2) ≤ FILESIZE - lastWindow memsize FILESIZE * memsize) ↔
      FILESIZE % memsize = 0 ∨ 2 * (memsize / 2) ≤ FILESIZE % memsize := by
  have hsplit := Int.mul_ediv_add_emod (FILESIZE - 1) memsize
  have hmod := Int.emod_nonneg (FILESIZE - 1) (Int.ne_of_gt hm)
  have hlt := Int.emod_lt_of_pos (FILESIZE - 1) hm
  rw [Int.mul_comm] at hsplit
  have hfile : FILESIZE % memsize = ((FILESIZE - 1) % memsize + 1) % memsize := by
    rw [Int.emod_add_emod]
    congr 1
    omega
  rw [lastWindow, hfile]
  rcases Int.lt_or_eq_of_le (Int.add_one_le_of_lt hlt) with hpart | hfull
  · rw [Int.emod_eq_of_lt (by omega) hpart]
    omega
  · rw [hfull, Int.emod_self]
    omega

/-- A negative window other than -1 is too long for every file. -/
theorem not_touchesInside_of_neg {a : Arguments} {FILESIZE : ℤ} (hm : a.memsize ≤ -2)
    (hlong : -2 ^ 63 ≤ a.memsize) (h0 : 0 < FILESIZE) (hfile : FILESIZE < 2 ^ 63) :
    ¬ TouchesInside a FILESIZE := by
  intro hinside
  have hopen : Opened a.memsize FILESIZE 0 := by
    intro i hi
    obtain rfl := Nat.le_zero.mp hi
    exact h0
  have htouch : Touched a FILESIZE :=
    .last (mergeTouches_of_neg hm hlong (Int.le_of_lt h0) hfile)
  have hin := hinside 0 _ hopen htouch
  simp only [curSize] at hin
  omega

/-- The last merge reaches the end of its window, so the last window has the records. -/
theorem TouchesInside.rest {a : Arguments} {FILESIZE : ℤ} (h : TouchesInside a FILESIZE)
    (hm : 0 < a.memsize) (hlong : a.memsize < 2 ^ 63) (h0 : 0 < FILESIZE) :
    2 * (a.memsize / 2) ≤ FILESIZE - lastWindow a.memsize FILESIZE * a.memsize := by
  obtain ⟨k, hk⟩ := lastWindow_eq_natCast hm h0
  have hlast := lastWindow_lt hm FILESIZE
  rw [hk] at hlast ⊢
  by_contra hover
  have htouch : Touched a (FILESIZE - k * a.memsize) :=
    .last (mergeTouches_of_pos hm hlong (by omega) (by omega))
  have hin := h k _ ((opened_iff hm).mpr hlast) htouch
  rw [curSize_eq] at hin
  omega

/-- No slice goes behind the records that the last window has. -/
theorem touchesInside_of_rest {pageSize : ℤ} {a : Arguments} {FILESIZE : ℤ}
    (hacc : Accepted pageSize a) (hm : 0 < a.memsize) (hlong : a.memsize < 2 ^ 63)
    (hrest : 2 * (a.memsize / 2) ≤ FILESIZE - lastWindow a.memsize FILESIZE * a.memsize) :
    TouchesInside a FILESIZE := by
  intro k r hopen htouch
  obtain ⟨C, no, w, hC, hno, hw, hend, hr⟩ := htouch.slices hacc
  have hrlt := slices_lt hm hlong hC hno hw hend hr
  rw [curSize_eq]
  rcases Int.lt_or_eq_of_le (le_lastWindow hm ((opened_iff hm).mp hopen)) with hbefore | hlast
  · have hfull := end_le_of_ne_lastWindow hm hbefore
    rw [Int.add_mul, Int.one_mul] at hfull
    omega
  · rw [hlast]
    omega

/-- Only records of the file are touched exactly if the last window is full, or lacks only
the record that no slice has. -/
theorem touches_inside_iff {pageSize argc : ℤ} {a a' : Arguments}
    (haccepted : checkArgs pageSize argc a = .ok a') (hlow : -2 ^ 63 ≤ a.memsize)
    (hhigh : a.memsize < 2 ^ 63) (size : ℤ) :
    TouchesInside a (fileSize size) ↔
      fileSize size = 0 ∨ a.memsize = -1 ∨
        0 < a.memsize ∧ (fileSize size % a.memsize = 0 ∨
          2 * (a.memsize / 2) ≤ fileSize size % a.memsize) := by
  have hacc := (checkArgs_ok haccepted).2
  have hnonneg := fileSize_nonneg size
  have hlt := fileSize_lt size
  constructor
  · intro hinside
    by_cases hempty : fileSize size = 0
    · exact .inl hempty
    have h0 : 0 < fileSize size := by omega
    refine .inr ?_
    rcases Int.lt_trichotomy a.memsize 0 with hm | hm | hm
    · refine .inl ?_
      by_contra hne
      exact not_touchesInside_of_neg (by omega) hlow h0 (by omega) hinside
    · exact absurd hm hacc.memsize
    · exact .inr ⟨hm, (lastWindow_rest hm).mp (hinside.rest hm hhigh h0)⟩
  · rintro (hempty | hone | ⟨hm, hrest⟩)
    · intro k r hopen
      have hfirst := hopen 0 (Nat.zero_le k)
      simp only [curSize] at hfirst
      omega
    · intro k r _ htouch
      obtain ⟨C, no, w, hC, _, _, _, hr⟩ := htouch.slices hacc
      rw [hone, slices_neg_one hC] at hr
      cases hr
    · exact touchesInside_of_rest hacc hm hhigh ((lastWindow_rest hm).mpr hrest)

/-- A file of 5000 records: the last merge of the second window goes on to record 8191. -/
theorem touches_outside :
    checkArgs 4096 5 smallArguments = .ok smallArguments ∧ fileSize 80008 = 5000 ∧
      ¬ TouchesInside smallArguments (fileSize 80008) := by
  refine ⟨checkArgs_of_accepted (by decide) smallArguments_accepted, by decide,
    fun hinside => ?_⟩
  have hm : 0 < smallArguments.memsize := by decide
  have hopen : Opened smallArguments.memsize (fileSize 80008) 1 :=
    (opened_iff hm).mpr (by decide)
  have htouch : Touched smallArguments 4095 :=
    .last (mergeTouches_of_pos hm (by decide) (by decide) (by decide))
  exact absurd (hinside 1 4095 hopen htouch) (by decide)

/-- Two full windows. -/
theorem touches_inside_iff_full : TouchesInside smallArguments (fileSize 131080) := by
  have haccepted := checkArgs_of_accepted (by decide : (4 : ℤ) ≤ 5) smallArguments_accepted
  exact (touches_inside_iff haccepted (by decide) (by decide) 131080).mpr (by decide)

end OsaspLabs.SortIndex
