import OsaspLabs.SortIndex.Arguments
import OsaspLabs.SortIndex.Lockstep

/-! # The whole index file of LAB_6

`createThreads` sorts the file window by window. A window is mapped at the byte offset of
its first record; the header of the file in front of the records gives `idx[0]` the record
at that offset. -/

namespace OsaspLabs.SortIndex

variable {τ : Type*} [LinearOrder τ]

/-- The cast of an address to `int`. -/
def toInt (addr : ℤ) : ℤ := addr.bmod (2 ^ 32)

/-- The number of the record that `openFile` maps as `idx[0]`. There is none if `mmap`
fails; a window that reaches past the end of the file is left out. -/
def openFile (pageSize memsize addr FILESIZE : ℤ) : Option ℕ :=
  if memsize ≤ 0 ∨ toInt addr < 0 ∨ (toInt addr).tmod pageSize ≠ 0 then none
  else if toInt addr / 16 + memsize ≤ FILESIZE then some (toInt addr / 16).toNat
  else none

/-- The loop of `createThreads` over the windows from `curSize` on. -/
inductive FileRun (pageSize : ℤ) (a : Arguments) : ℤ → Window τ → Window τ → Prop
  | finished {curSize : ℤ} {file : Window τ} (done : ¬ curSize < file.length) :
      FileRun pageSize a curSize file file
  | window {curSize : ℤ} {start : ℕ} {file w file' : Window τ} (more : curSize < file.length)
      (mapped : openFile pageSize a.memsize (curSize * 16) file.length = some start)
      (run : WindowRun a.threads.toNat a.memsize.toNat a.blocks.toNat
        ((file.drop start).take a.memsize.toNat) w)
      (rest : FileRun pageSize a (curSize + a.memsize) (writeAt start w file) file') :
      FileRun pageSize a curSize file file'

theorem toInt_of_small {addr : ℤ} (h0 : 0 ≤ addr) (h : addr < 2 ^ 31) : toInt addr = addr := by
  unfold toInt
  apply Int.bmod_eq_of_le <;> omega

/-- As long as the byte offset of the last window fits an `int`, window `k` is mapped at its
first record. -/
theorem openFile_eq {pageSize : ℤ} {m n k : ℕ} (hm : 0 < m) (hpages : (m : ℤ).tmod pageSize = 0)
    (hk : k < n) (hoffset : 16 * (m * (n - 1 : ℕ) : ℕ) < 2 ^ 31) :
    openFile pageSize m ((m * k : ℕ) * 16) (m * n : ℕ) = some (m * k) := by
  have hle : m * k ≤ m * (n - 1) := Nat.mul_le_mul_left m (by omega)
  have hend : m * k + m ≤ m * n := by
    calc m * k + m = m * (k + 1) := (Nat.mul_succ m k).symm
      _ ≤ m * n := Nat.mul_le_mul_left m hk
  have hcast : toInt ((m * k : ℕ) * 16) = (m * k : ℕ) * 16 := toInt_of_small (by omega) (by omega)
  have hpage : (((m * k : ℕ) : ℤ) * 16).tmod pageSize = 0 := by
    apply Int.tmod_eq_zero_of_dvd
    have hdvd := Int.dvd_of_tmod_eq_zero hpages
    push_cast
    rw [mul_assoc]
    exact hdvd.mul_right _
  have hstart : (((m * k : ℕ) : ℤ) * 16 / 16) = (m * k : ℕ) :=
    Int.mul_ediv_cancel _ (by decide)
  have hmapped : ¬ ((m : ℤ) ≤ 0 ∨ ((m * k : ℕ) : ℤ) * 16 < 0 ∨
      (((m * k : ℕ) : ℤ) * 16).tmod pageSize ≠ 0) := by
    rw [hpage]
    omega
  unfold openFile
  rw [hcast, if_neg hmapped, hstart, if_pos (by omega), Int.toNat_natCast]

theorem Accepted.toNat {pageSize : ℤ} {a : Arguments} (h : Accepted pageSize a) :
    ∃ k, 4 ≤ k ∧ a.blocks.toNat = 2 ^ k ∧ a.threads.toNat < a.blocks.toNat := by
  have hmin : minThreads = 8 := rfl
  have hge := h.threads_ge
  have hlt := h.threads_lt
  obtain ⟨k, hk⟩ := h.blocks
  have hcast : ((2 ^ k : ℕ) : ℤ) = 2 ^ k := by push_cast; rfl
  rw [← hcast] at hk
  refine ⟨k, ?_, by rw [hk, Int.toNat_natCast], by omega⟩
  by_contra hsmall
  have hle : 2 ^ k ≤ 2 ^ 3 := Nat.pow_le_pow_right (by decide) (by omega)
  omega

theorem Accepted.even {pageSize : ℤ} {a : Arguments} (h : Accepted pageSize a) :
    ∃ n : ℕ, 2 ≤ n ∧ a.blocks = 2 * n ∧ a.threads.toNat < a.blocks.toNat := by
  obtain ⟨k, hk, hpow, hamount⟩ := h.toNat
  obtain ⟨j, rfl⟩ : ∃ j, k = j + 2 := ⟨k - 2, by omega⟩
  have hpos := Nat.two_pow_pos j
  rw [pow_succ', pow_succ'] at hpow
  exact ⟨2 * 2 ^ j, by omega, by omega, hamount⟩

theorem Accepted.blocks_dvd {pageSize : ℤ} {a : Arguments} {m : ℕ} (h : Accepted pageSize a)
    (hm : a.memsize = m) (hblocks : a.blocks ∣ a.memsize) : a.blocks.toNat ∣ m := by
  have hmin : minThreads = 8 := rfl
  have hge := h.threads_ge
  have hlt := h.threads_lt
  have hnonneg : 0 ≤ a.blocks := by omega
  rw [hm, ← Int.toNat_of_nonneg hnonneg] at hblocks
  exact Int.natCast_dvd_natCast.mp hblocks

/-- From window `k` on, every window ends sorted with the records it had; the windows before
it are left alone. -/
theorem FileRun.windows {pageSize : ℤ} {a : Arguments} {m n k : ℕ} {file file' : Window τ}
    (hacc : Accepted pageSize a) (hm : a.memsize = m) (hblocks : a.blocks ∣ a.memsize)
    (hlen : file.length = m * n) (hoffset : 16 * (m * (n - 1 : ℕ) : ℕ) < 2 ^ 31)
    (h : FileRun pageSize a ((m * k : ℕ) : ℤ) file file') :
    file'.length = file.length ∧ ∀ i < n,
      (i < k → slice m i file' = slice m i file) ∧
      (k ≤ i → Sorted (slice m i file') ∧ (slice m i file').Perm (slice m i file)) := by
  have hpos : 0 < m := by
    have := hacc.memsize
    omega
  generalize hcur : ((m * k : ℕ) : ℤ) = curSize at h
  induction h generalizing k with
  | @finished curSize file done =>
      refine ⟨rfl, fun i hi => ⟨fun _ => rfl, fun hki => ?_⟩⟩
      have hlt : m * k < m * n := Nat.mul_lt_mul_of_pos_left (by omega) hpos
      omega
  | @window curSize start file w file' more mapped run rest ih =>
      have hk : k < n := by
        have hlt : m * k < m * n := by omega
        exact Nat.lt_of_mul_lt_mul_left hlt
      rw [← hcur, hm, hlen, openFile_eq hpos (hm ▸ hacc.pages) hk hoffset] at mapped
      obtain rfl := Option.some.inj mapped
      have hfit : m * (k + 1) ≤ file.length := hlen ▸ Nat.mul_le_mul_left m hk
      have hlenw : (slice m k file).length = m := length_slice hfit
      obtain ⟨e, he, hpow, hamount⟩ := hacc.toNat
      have hwindow : WindowRun a.threads.toNat m a.blocks.toNat (slice m k file) w := by
        rw [hm, Int.toNat_natCast] at run
        exact run
      have hsorted := hwindow.sorted (by omega) hpow hamount (hacc.blocks_dvd hm hblocks) hlenw
      have hw : w.length = m := hsorted.2.length_eq.trans hlenw
      rw [writeAt_eq_setSlice hw] at ih
      have hset : (setSlice m k w file).length = file.length := length_setSlice hfit hw
      obtain ⟨hlen', hrest⟩ := ih (k := k + 1) (hset.trans hlen)
        (by rw [Nat.mul_succ, Nat.cast_add, hcur, hm])
      refine ⟨hlen'.trans hset, fun i hi => ⟨fun hik => ?_, fun hki => ?_⟩⟩
      · rw [(hrest i hi).1 (by omega), slice_setSlice_of_ne (by omega) hfit hw]
      · rcases Nat.eq_or_lt_of_le hki with rfl | hlt
        · rw [(hrest k hi).1 (by omega), slice_setSlice_self hfit hw]
          exact hsorted
        · have hlater := (hrest i hi).2 hlt
          rw [slice_setSlice_of_ne (by omega) hfit hw] at hlater
          exact hlater

theorem FileRun.memsize_pos {pageSize : ℤ} {a : Arguments} {file file' : Window τ}
    (hfile : 1 ≤ file.length) (h : FileRun pageSize a 0 file file') : 0 < a.memsize := by
  cases h with
  | finished done => omega
  | window more mapped run rest =>
      by_contra hneg
      rw [openFile, if_pos (.inl (Int.not_lt.mp hneg))] at mapped
      cases mapped

/-- The loop can be run to its end. -/
theorem FileRun.exists {pageSize : ℤ} {a : Arguments} {m n : ℕ} {file : Window τ}
    (hacc : Accepted pageSize a) (hm : a.memsize = m) (hblocks : a.blocks ∣ a.memsize)
    (hlen : file.length = m * n) (hoffset : 16 * (m * (n - 1 : ℕ) : ℕ) < 2 ^ 31)
    (hpos : 0 < m) (hcounter : a.blocks.toNat < 2 ^ 31) (left k : ℕ) (hk : k + left = n) :
    ∃ file', FileRun pageSize a ((m * k : ℕ) : ℤ) file file' := by
  induction left generalizing k file with
  | zero => exact ⟨file, .finished (by rw [hlen, ← hk, Nat.add_zero]; omega)⟩
  | succ left ih =>
      obtain ⟨e, he, hpow, hamount⟩ := hacc.toNat
      have hlt : k < n := by omega
      have hfit : m * (k + 1) ≤ file.length := hlen ▸ Nat.mul_le_mul_left m hlt
      have hlenw : (slice m k file).length = m := length_slice hfit
      obtain ⟨w, run⟩ := WindowRun.exists (by omega) hpow hamount
        (hacc.blocks_dvd hm hblocks) hlenw hcounter
      have hw : w.length = m :=
        (run.sorted (by omega) hpow hamount (hacc.blocks_dvd hm hblocks)
          hlenw).2.length_eq.trans hlenw
      have hset : (setSlice m k w file).length = file.length := length_setSlice hfit hw
      obtain ⟨file', rest⟩ := ih (hset.trans hlen) (k + 1) (by omega)
      have more : ((m * k : ℕ) : ℤ) < file.length := by
        rw [Nat.mul_succ] at hfit
        omega
      have mapped : openFile pageSize a.memsize ((m * k : ℕ) * 16) file.length = some (m * k) := by
        rw [hm, hlen]
        exact openFile_eq hpos (hm ▸ hacc.pages) hlt hoffset
      refine ⟨file', .window (w := w) more mapped ?_ ?_⟩
      · rw [hm, Int.toNat_natCast]
        exact run
      · rw [writeAt_eq_setSlice hw, hm, ← Nat.cast_add, ← Nat.mul_succ]
        exact rest

/-- The program leaves the records of each window sorted. It never merges two windows: the
whole file is sorted exactly if the windows were in order among each other before. -/
theorem file_windows_sorted {pageSize argc : ℤ} {a a' : Arguments} {file file' : Window τ}
    (haccepted : checkArgs pageSize argc a = .ok a') (hblocks : a.blocks ∣ a.memsize)
    (hwindows : a.memsize ∣ file.length) (hfile : 1 ≤ file.length)
    (hoffset : 16 * (file.length - a.memsize) < 2 ^ 31)
    (h : FileRun pageSize a 0 file file') :
    file'.Perm file ∧
    (∀ i, (i + 1) * a.memsize.toNat ≤ file.length →
      Sorted (slice a.memsize.toNat i file') ∧
        (slice a.memsize.toNat i file').Perm (slice a.memsize.toNat i file)) ∧
    (Sorted file' ↔ ∀ i j, i < j → (j + 1) * a.memsize.toNat ≤ file.length →
      ∀ x ∈ slice a.memsize.toNat i file, ∀ y ∈ slice a.memsize.toNat j file,
        x.timeMark ≤ y.timeMark) := by
  have hacc := (checkArgs_ok haccepted).2
  have hpos := h.memsize_pos hfile
  obtain ⟨m, hm⟩ : ∃ m : ℕ, a.memsize = m := ⟨a.memsize.toNat, by omega⟩
  rw [hm, Int.toNat_natCast]
  rw [hm] at hwindows hoffset hpos
  obtain ⟨n, hlen⟩ := Int.natCast_dvd_natCast.mp hwindows
  have hn : 1 ≤ n := Nat.pos_of_ne_zero fun h0 => by simp [hlen, h0] at hfile
  have hlast : m * (n - 1) + m = m * n := by
    rw [← Nat.mul_succ, Nat.succ_eq_add_one, Nat.sub_add_cancel hn]
  have hwin := FileRun.windows (k := 0) hacc hm hblocks hlen (by omega) h
  have hlen' : file'.length = m * n := hwin.1.trans hlen
  have hsorted : ∀ i < n, Sorted (slice m i file') ∧ (slice m i file').Perm (slice m i file) :=
    fun i hi => (hwin.2 i hi).2 (Nat.zero_le i)
  have hlt : ∀ i, (i + 1) * m ≤ file.length ↔ i < n := by
    intro i
    rw [hlen, Nat.mul_comm m n]
    exact ⟨fun hle => Nat.lt_of_succ_le (Nat.le_of_mul_le_mul_right hle (by omega)),
      fun hi => Nat.mul_le_mul_right m hi⟩
  refine ⟨perm_of_slices hlen' hlen fun i hi => (hsorted i hi).2,
    fun i hi => hsorted i ((hlt i).mp hi), ?_⟩
  rw [Sorted, pairwise_iff_slices hlen']
  constructor
  · rintro ⟨-, hamong⟩ i j hij hj x hx y hy
    have hjn := (hlt j).mp hj
    exact hamong i j hij hjn x ((hsorted i (hij.trans hjn)).2.mem_iff.mpr hx) y
      ((hsorted j hjn).2.mem_iff.mpr hy)
  · intro hamong
    refine ⟨fun i hi => (hsorted i hi).1, fun i j hij hj x hx y hy => ?_⟩
    exact hamong i j hij ((hlt j).mpr hj) x ((hsorted i (hij.trans hj)).2.mem_iff.mp hx) y
      ((hsorted j hj).2.mem_iff.mp hy)

/-! ## Two windows in falling order -/

def twoWindows (m : ℕ) : Window ℕ := List.replicate m ⟨1, 0⟩ ++ List.replicate m ⟨0, 0⟩

theorem length_twoWindows (m : ℕ) : (twoWindows m).length = m * 2 := by
  rw [twoWindows, List.length_append, List.length_replicate, List.length_replicate]
  omega

theorem slice_twoWindows (m : ℕ) :
    slice m 0 (twoWindows m) = List.replicate m ⟨1, 0⟩ ∧
      slice m 1 (twoWindows m) = List.replicate m ⟨0, 0⟩ := by
  constructor <;> simp [slice, twoWindows]

def smallArguments : Arguments := ⟨4096, 16, 8⟩

theorem smallArguments_accepted : Accepted 4096 smallArguments where
  memsize := by decide
  pages := by decide
  blocks := ⟨4, by decide⟩
  threads_ge := by decide
  threads_le := by decide
  threads_lt := by decide

theorem twoWindows_run :
    ∃ file', FileRun 4096 smallArguments 0 (twoWindows 4096) file' :=
  FileRun.exists smallArguments_accepted rfl (by decide) (length_twoWindows 4096) (by decide)
    (by decide) (by decide) 2 0 rfl

theorem file_not_sorted :
    ∃ file', checkArgs 4096 5 smallArguments = .ok smallArguments ∧
      smallArguments.blocks ∣ smallArguments.memsize ∧
      smallArguments.memsize ∣ (twoWindows 4096).length ∧
      FileRun 4096 smallArguments 0 (twoWindows 4096) file' ∧ ¬ Sorted file' := by
  obtain ⟨file', hrun⟩ := twoWindows_run
  have hlen := length_twoWindows 4096
  refine ⟨file', checkArgs_of_accepted (by decide) smallArguments_accepted, by decide,
    by rw [hlen]; decide, hrun, fun hsorted => ?_⟩
  have hwin := FileRun.windows (k := 0) smallArguments_accepted rfl (by decide) hlen (by decide)
    hrun
  have hfirst := ((hwin.2 0 (by decide)).2 (Nat.le_refl 0)).2
  have hsecond := ((hwin.2 1 (by decide)).2 (Nat.zero_le 1)).2
  rw [(slice_twoWindows 4096).1] at hfirst
  rw [(slice_twoWindows 4096).2] at hsecond
  have hone : (⟨1, 0⟩ : IndexS ℕ) ∈ slice 4096 0 file' :=
    hfirst.mem_iff.mpr (List.mem_replicate.mpr ⟨by decide, rfl⟩)
  have hzero : (⟨0, 0⟩ : IndexS ℕ) ∈ slice 4096 1 file' :=
    hsecond.mem_iff.mpr (List.mem_replicate.mpr ⟨by decide, rfl⟩)
  have hamong := ((pairwise_iff_slices (hwin.1.trans hlen)).mp hsorted).2
  exact absurd (hamong 0 1 (by decide) (by decide) _ hone _ hzero) (by decide)

theorem file_windows_sorted_twoWindows :
    ∃ file', FileRun 4096 smallArguments 0 (twoWindows 4096) file' ∧
      file'.Perm (twoWindows 4096) := by
  obtain ⟨file', hrun⟩ := twoWindows_run
  have haccepted := checkArgs_of_accepted (by decide : (4 : ℤ) ≤ 5) smallArguments_accepted
  have hlen := length_twoWindows 4096
  exact ⟨file', hrun, (file_windows_sorted haccepted (by decide) (by rw [hlen]; decide)
    (by rw [hlen]; decide) (by rw [hlen]; decide) hrun).1⟩

end OsaspLabs.SortIndex
