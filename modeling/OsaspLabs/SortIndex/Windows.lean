import OsaspLabs.SortIndex.File

/-! # The windows of LAB_6

Window `k` begins at record `k * memsize`. `openFile` maps it at the byte offset of this
record, which it casts to `int`; every mapping has the 8 bytes of the header in front of
`idx[0]`. -/

namespace OsaspLabs.SortIndex

/-- The conversion to `size_t`, which is `unsigned long`. -/
def toSizeT (n : ℤ) : ℤ := n % 2 ^ 64

/-- `FILESIZE` for a file of `size` bytes. -/
def fileSize (size : ℤ) : ℤ := toSizeT (size - 8) / 16

/-- The value of `curSize` for window `k`. -/
def curSize (memsize : ℤ) : ℕ → ℤ
  | 0 => 0
  | k + 1 => curSize memsize k + memsize

/-- The offset that `openFile` hands to `mmap` for window `k`. -/
def mapOffset (memsize : ℤ) (k : ℕ) : ℤ := toInt (toSizeT (curSize memsize k * 16))

/-- The place in the file of `indices->idx[j]` of window `k`. -/
def idxByte (memsize : ℤ) (k j : ℕ) : ℤ := mapOffset memsize k + 8 + 16 * j

/-- The place of a record in the file. -/
def recordByte (record : ℤ) : ℤ := 8 + 16 * record

/-- The windows are the consecutive pieces of the file. -/
structure WindowsTile (pageSize memsize FILESIZE : ℤ) : Prop where
  offset : ∀ k : ℕ, k * memsize < FILESIZE → mapOffset memsize k = 16 * k * memsize
  nonneg : ∀ k : ℕ, k * memsize < FILESIZE → 0 ≤ mapOffset memsize k
  aligned : ∀ k : ℕ, k * memsize < FILESIZE → pageSize ∣ mapOffset memsize k
  records : ∀ k j : ℕ, k * memsize < FILESIZE → j < memsize →
    idxByte memsize k j = recordByte (k * memsize + j)
  /-- No record lies in two windows and none is skipped. -/
  covered : ∀ record, 0 ≤ record → record < FILESIZE →
    ∃! p : ℕ × ℕ, p.1 * memsize < FILESIZE ∧ p.2 < memsize ∧
      idxByte memsize p.1 p.2 = recordByte record

/-! ## Numbers of windows -/

theorem curSize_eq (memsize : ℤ) (k : ℕ) : curSize memsize k = k * memsize := by
  induction k with
  | zero => simp [curSize]
  | succ k ih =>
      rw [curSize, ih]
      push_cast
      ring

theorem toSizeT_of_small {n : ℤ} (h0 : 0 ≤ n) (h : n < 2 ^ 64) : toSizeT n = n :=
  Int.emod_eq_of_lt h0 h

theorem toInt_lt (addr : ℤ) : toInt addr < 2 ^ 31 := Int.bmod_lt (by decide)

theorem fileSize_nonneg (size : ℤ) : 0 ≤ fileSize size :=
  Int.ediv_nonneg (Int.emod_nonneg _ (by decide)) (by decide)

/-- The number of the last window, or -1. -/
def lastWindow (memsize FILESIZE : ℤ) : ℤ := (FILESIZE - 1) / memsize

theorem lastWindow_lt {memsize : ℤ} (hm : 0 < memsize) (FILESIZE : ℤ) :
    lastWindow memsize FILESIZE * memsize < FILESIZE := by
  have hle := Int.ediv_mul_le (FILESIZE - 1) (Int.ne_of_gt hm)
  rw [lastWindow]
  omega

theorem le_lastWindow {memsize FILESIZE : ℤ} {k : ℕ} (hm : 0 < memsize)
    (hk : k * memsize < FILESIZE) : k ≤ lastWindow memsize FILESIZE :=
  Int.le_ediv_of_mul_le hm (by omega)

theorem lastWindow_eq_natCast {memsize FILESIZE : ℤ} (hm : 0 < memsize) (hfile : 0 < FILESIZE) :
    ∃ k : ℕ, lastWindow memsize FILESIZE = k := by
  have hnonneg : 0 ≤ lastWindow memsize FILESIZE :=
    Int.ediv_nonneg (by omega) (Int.le_of_lt hm)
  exact ⟨_, (Int.toNat_of_nonneg hnonneg).symm⟩

/-! ## Offsets -/

theorem mapOffset_of_small {memsize : ℤ} {k : ℕ} (hm : 0 < memsize)
    (h : 16 * k * memsize < 2 ^ 31) : mapOffset memsize k = 16 * k * memsize := by
  have hk : 0 ≤ k * memsize := Int.mul_nonneg (Int.natCast_nonneg k) (Int.le_of_lt hm)
  have hbyte : curSize memsize k * 16 = 16 * k * memsize := by
    rw [curSize_eq]
    ring
  have hassoc : 16 * k * memsize = 16 * (k * memsize) := Int.mul_assoc ..
  rw [mapOffset, hbyte, toSizeT_of_small (by omega) (by omega), toInt_of_small (by omega) h]

theorem windowsTile_of_offset {pageSize memsize FILESIZE : ℤ} (hm : 0 < memsize)
    (hpages : pageSize ∣ memsize)
    (hoffset : ∀ k : ℕ, k * memsize < FILESIZE → mapOffset memsize k = 16 * k * memsize) :
    WindowsTile pageSize memsize FILESIZE where
  offset := hoffset
  nonneg k hk := by
    rw [hoffset k hk]
    exact Int.mul_nonneg (by omega) (Int.le_of_lt hm)
  aligned k hk := by
    rw [hoffset k hk]
    exact hpages.mul_left _
  records k j hk _ := by
    rw [idxByte, recordByte, hoffset k hk]
    ring
  covered record h0 hlt := by
    have hmod := Int.emod_nonneg record (Int.ne_of_gt hm)
    have hdiv := Int.ediv_nonneg h0 (Int.le_of_lt hm)
    have hsplit := Int.mul_ediv_add_emod record memsize
    obtain ⟨k, hk⟩ : ∃ k : ℕ, record / memsize = k := ⟨_, (Int.toNat_of_nonneg hdiv).symm⟩
    obtain ⟨j, hj⟩ : ∃ j : ℕ, record % memsize = j := ⟨_, (Int.toNat_of_nonneg hmod).symm⟩
    rw [hk, hj, Int.mul_comm] at hsplit
    have hkwin : k * memsize < FILESIZE := by omega
    refine ⟨(k, j), ⟨hkwin, hj ▸ Int.emod_lt_of_pos record hm, ?_⟩, ?_⟩
    · simp only [idxByte, recordByte, hoffset k hkwin, ← hsplit]
      ring
    · rintro ⟨k', j'⟩ ⟨hwin, hlt', hbyte⟩
      simp only [idxByte, recordByte, hoffset k' hwin, Int.mul_assoc] at hbyte
      have hrecord : j' + memsize * k' = record := by
        rw [Int.mul_comm memsize]
        omega
      obtain ⟨hk', hj'⟩ :=
        (Int.ediv_emod_unique hm).mpr ⟨hrecord, Int.natCast_nonneg j', hlt'⟩
      exact Prod.ext (by omega) (by omega)

/-- The windows tile the file exactly if the byte offset of the last one fits an `int`. -/
theorem windows_tile_iff {pageSize argc : ℤ} {a a' : Arguments}
    (haccepted : checkArgs pageSize argc a = .ok a') (hm : 0 < a.memsize) (size : ℤ) :
    WindowsTile pageSize a.memsize (fileSize size) ↔
      16 * lastWindow a.memsize (fileSize size) * a.memsize < 2 ^ 31 := by
  have hpages := Int.dvd_of_tmod_eq_zero (checkArgs_ok haccepted).2.pages
  constructor
  · intro htile
    rcases Int.lt_or_eq_of_le (fileSize_nonneg size) with hfile | hempty
    · obtain ⟨k, hk⟩ := lastWindow_eq_natCast hm hfile
      have hlast := lastWindow_lt hm (fileSize size)
      rw [hk] at hlast ⊢
      rw [← htile.offset k hlast]
      exact toInt_lt _
    · have hlast := lastWindow_lt hm (fileSize size)
      rw [← hempty] at hlast ⊢
      rw [Int.mul_assoc]
      omega
  · intro hsmall
    refine windowsTile_of_offset hm hpages fun k hk => mapOffset_of_small hm ?_
    calc 16 * k * a.memsize ≤ 16 * lastWindow a.memsize (fileSize size) * a.memsize :=
          Int.mul_le_mul_of_nonneg_right
            (Int.mul_le_mul_of_nonneg_left (le_lastWindow hm hk) (by decide)) (Int.le_of_lt hm)
      _ < 2 ^ 31 := hsmall

/-- A window of 2 GiB: the second one is mapped at an offset below 0. -/
def largeArguments : Arguments := ⟨2 ^ 27, 16, 8⟩

theorem largeArguments_accepted :
    checkArgs 4096 5 largeArguments = .ok largeArguments :=
  checkArgs_of_accepted (by decide)
    { memsize := by decide
      pages := by decide
      blocks := ⟨4, by decide⟩
      threads_ge := by decide
      threads_le := by decide
      threads_lt := by decide }

theorem windows_overlap :
    checkArgs 4096 5 largeArguments = .ok largeArguments ∧ 0 < largeArguments.memsize ∧
      fileSize (8 + 16 * 2 ^ 28) = 2 ^ 28 ∧ mapOffset largeArguments.memsize 1 = -2 ^ 31 ∧
      ¬ WindowsTile 4096 largeArguments.memsize (fileSize (8 + 16 * 2 ^ 28)) := by
  refine ⟨largeArguments_accepted, by decide, by decide, by decide, fun htile => ?_⟩
  exact absurd (htile.nonneg 1 (by decide)) (by decide)

/-- Two windows of 4096 records. -/
theorem windows_tile_iff_small : WindowsTile 4096 4096 (fileSize 131080) := by
  have haccepted := checkArgs_of_accepted (by decide : (4 : ℤ) ≤ 5) smallArguments_accepted
  exact (windows_tile_iff haccepted (by decide) 131080).mpr (by decide)

end OsaspLabs.SortIndex
