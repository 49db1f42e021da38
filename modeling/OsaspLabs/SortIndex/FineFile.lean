import OsaspLabs.SortIndex.File
import OsaspLabs.SortIndex.FineRound

/-! # The whole file, record by record

The threads of a round take turns between any two records that they copy or merge. This loses
nothing: such a run of the program is one with whole merges. -/

namespace OsaspLabs.SortIndex

open Runs

variable {τ : Type*} [LinearOrder τ]

/-- `mergePhase` from the test `BLOCKS > 4` on. -/
inductive FineRoundsRun (memsize threads : ℕ) :
    ℕ → List BlocksMap → Window τ → Window τ → Prop
  | stop {BLOCKS : ℕ} {map : List BlocksMap} {w : Window τ} (small : ¬ 4 < BLOCKS) :
      FineRoundsRun memsize threads BLOCKS map w w
  | round {BLOCKS : ℕ} {map : List BlocksMap} {w w' : Window τ} {s : FineState τ}
      (big : 4 < BLOCKS)
      (run : Reaches (fineStep memsize (BLOCKS / 2)) anything
        (fineInit threads (resetMap (BLOCKS / 2) map) w) s)
      (done : s.round.Complete)
      (rest : FineRoundsRun memsize threads (BLOCKS / 2) s.round.map s.window w') :
      FineRoundsRun memsize threads BLOCKS map w w'

/-- One turn of the loop in `createThreads`. Only the main thread is left for the last merge. -/
inductive FineWindowRun (amount memsize blocks : ℕ) : Window τ → Window τ → Prop
  | mk {s : SortState} {behind : BlocksMap} {w w₁ w₂ w₃ : Window τ}
      (counter : blocks < 2 ^ 31)
      (sorting : Reaches (sortStep blocks) anything (sortInit amount blocks) s)
      (done : s.Complete)
      (qsorts : SortRun (memsize / blocks) (s.qsorts.map Prod.snd) w w₁)
      /- `behind` is the memory behind the table, which reads as busy -/
      (busy : behind.isBusy = 1)
      (rounds : FineRoundsRun memsize (amount + 1) (2 * blocks) (s.map ++ [behind]) w₁ w₂)
      (last : merge memsize 2 0 w₂ = some w₃) :
      FineWindowRun amount memsize blocks w w₃

/-- The loop of `createThreads` over the windows from `curSize` on. -/
inductive FineFileRun (pageSize : ℤ) (a : Arguments) : ℤ → Window τ → Window τ → Prop
  | finished {curSize : ℤ} {file : Window τ} (done : ¬ curSize < file.length) :
      FineFileRun pageSize a curSize file file
  | window {curSize : ℤ} {start : ℕ} {file w file' : Window τ} (more : curSize < file.length)
      (mapped : openFile pageSize a.memsize (curSize * 16) file.length = some start)
      (run : FineWindowRun a.threads.toNat a.memsize.toNat a.blocks.toNat
        ((file.drop start).take a.memsize.toNat) w)
      (rest : FineFileRun pageSize a (curSize + a.memsize) (writeAt start w file) file') :
      FineFileRun pageSize a curSize file file'

/-! ## Refinement -/

theorem FineRoundsRun.coarse {memsize threads j : ℕ} {map : List BlocksMap} {w w' : Window τ}
    (hthreads : 0 < threads) (hdvd : 2 ^ (j + 1) ∣ memsize) (hw : w.length = memsize)
    (hmap : TableReady (2 ^ (j + 1)) map)
    (h : FineRoundsRun memsize threads (2 * 2 ^ (j + 1)) map w w') :
    RoundsRun memsize threads (2 * 2 ^ (j + 1)) map w w' := by
  induction j generalizing map w with
  | zero =>
      cases h with
      | stop small => exact .stop small
      | round big => exact absurd big (by decide)
  | succ j ih =>
      obtain ⟨hpow, hhalf, heven, hpos⟩ := half_blocks j
      rw [hpow] at hmap hdvd
      cases h with
      | stop small => exact .stop small
      | @round _ _ _ _ s big run done rest =>
          rw [hhalf] at run rest
          have hok := fineOk_of_reaches hthreads hmap hdvd hw run
          have hwin := hok.window_eq hdvd hw done
          have hround := round_reaches run
          have hmerges := mergeAll_eq_mergePairs hdvd hw (hok.round.merges_perm done)
          rw [← hwin] at hmerges
          have hlater := ih ((Nat.dvd_mul_left _ 2).trans hdvd) hok.size
            (hok.round.ready done heven hpos) rest
          rw [← hhalf] at hround hmerges hlater
          exact .round big hround done hmerges hlater

theorem FineWindowRun.coarse {amount memsize blocks k : ℕ} {w w' : Window τ} (hk : 1 ≤ k)
    (hblocks : blocks = 2 ^ k) (hamount : amount < blocks) (hdvd : blocks ∣ memsize)
    (hw : w.length = memsize) (h : FineWindowRun amount memsize blocks w w') :
    WindowRun amount memsize blocks w w' := by
  obtain ⟨j, rfl⟩ : ∃ j, k = j + 1 := ⟨k - 1, by omega⟩
  obtain ⟨counter, sorting, done, qsorts, busy, rounds, last⟩ := h
  have hmap := (sortOk_of_reaches hamount sorting).tableReady busy
  have hlen := qsorts.length.trans hw
  subst hblocks
  exact .mk counter sorting done qsorts busy
    (rounds.coarse (Nat.succ_pos amount) hdvd hlen hmap) last

/-- Every window is a whole one, so every run over the file is one with whole merges. -/
theorem FineFileRun.coarse {pageSize : ℤ} {a : Arguments} {m n k : ℕ} {file file' : Window τ}
    (hacc : Accepted pageSize a) (hm : a.memsize = m) (hblocks : a.blocks ∣ a.memsize)
    (hlen : file.length = m * n) (hoffset : 16 * (m * (n - 1 : ℕ) : ℕ) < 2 ^ 31)
    (h : FineFileRun pageSize a ((m * k : ℕ) : ℤ) file file') :
    FileRun pageSize a ((m * k : ℕ) : ℤ) file file' := by
  have hpos : 0 < m := by
    have := hacc.memsize
    omega
  generalize hcur : ((m * k : ℕ) : ℤ) = curSize at h ⊢
  induction h generalizing k with
  | finished done => exact .finished done
  | @window curSize start file w file' more mapped run rest ih =>
      have hk : k < n := by
        have hlt : m * k < m * n := by omega
        exact Nat.lt_of_mul_lt_mul_left hlt
      have hstart := mapped
      rw [← hcur, hm, hlen, openFile_eq hpos (hm ▸ hacc.pages) hk hoffset] at hstart
      obtain rfl := Option.some.inj hstart
      have hfit : m * (k + 1) ≤ file.length := hlen ▸ Nat.mul_le_mul_left m hk
      have hlenw : (slice m k file).length = m := length_slice hfit
      obtain ⟨e, he, hpow, hamount⟩ := hacc.toNat
      have hwindow : WindowRun a.threads.toNat a.memsize.toNat a.blocks.toNat
          ((file.drop (m * k)).take a.memsize.toNat) w := by
        rw [hm, Int.toNat_natCast] at run ⊢
        exact run.coarse (by omega) hpow hamount (hacc.blocks_dvd hm hblocks) hlenw
      have hw : w.length = m := by
        have hsorted := hwindow
        rw [hm, Int.toNat_natCast] at hsorted
        have hperm := (hsorted.sorted (by omega) hpow hamount (hacc.blocks_dvd hm hblocks)
          hlenw).2
        exact hperm.length_eq.trans hlenw
      have hset : (writeAt (m * k) w file).length = file.length := by
        rw [writeAt_eq_setSlice hw]
        exact length_setSlice hfit hw
      exact .window more mapped hwindow (ih (k := k + 1) (hset.trans hlen)
        (by rw [Nat.mul_succ, Nat.cast_add, hcur, hm]))

/-! ## Runs exist -/

theorem fine_round_completes {memsize C threads : ℕ} {map : List BlocksMap} {w : Window τ}
    (hthreads : 0 < threads) (hmap : TableReady (2 * C) map) (hdvd : 2 * C ∣ memsize)
    (hw : w.length = memsize) :
    ∃ s, Reaches (fineStep memsize (2 * C)) anything
      (fineInit threads (resetMap (2 * C) map) w) s ∧ s.round.Complete := by
  refine exists_final (I := FineOk memsize C w)
    (FineState.left (memsize / (2 * C)) (2 * C)) (fun _ _ _ hu hstep => hu.step hdvd hw hstep)
    (fun u hu hdone => ?_) (FineOk.init hthreads hmap hw)
  obtain ⟨t, v, hv⟩ := hu.enabled hdvd hw hdone
  exact ⟨t, v, hv, hu.step_left hdvd hw hv⟩

theorem FineRoundsRun.exists {memsize threads j : ℕ} {map : List BlocksMap} {w : Window τ}
    (hthreads : 0 < threads) (hdvd : 2 ^ (j + 1) ∣ memsize) (hw : w.length = memsize)
    (hmap : TableReady (2 ^ (j + 1)) map) :
    ∃ w', FineRoundsRun memsize threads (2 * 2 ^ (j + 1)) map w w' := by
  induction j generalizing map w with
  | zero => exact ⟨w, .stop (by decide)⟩
  | succ j ih =>
      obtain ⟨hpow, hhalf, heven, hpos⟩ := half_blocks j
      rw [hpow] at hmap hdvd
      obtain ⟨s, run, done⟩ := fine_round_completes hthreads hmap hdvd hw
      have hok := fineOk_of_reaches hthreads hmap hdvd hw run
      obtain ⟨w', rest⟩ := ih ((Nat.dvd_mul_left _ 2).trans hdvd) hok.size
        (hok.round.ready done heven hpos)
      rw [← hhalf] at run rest
      exact ⟨w', .round (by omega) run done rest⟩

theorem FineWindowRun.exists {amount memsize blocks k : ℕ} {w : Window τ} (hk : 1 ≤ k)
    (hblocks : blocks = 2 ^ k) (hamount : amount < blocks) (hdvd : blocks ∣ memsize)
    (hw : w.length = memsize) (hcounter : blocks < 2 ^ 31) :
    ∃ w', FineWindowRun amount memsize blocks w w' := by
  obtain ⟨j, rfl⟩ : ∃ j, k = j + 1 := ⟨k - 1, by omega⟩
  obtain ⟨s, sorting, done⟩ := sortPhase_completes hamount
  have hok := sortOk_of_reaches hamount sorting
  have hfit : ∀ i ∈ s.qsorts.map Prod.snd, memsize / blocks * (i + 1) ≤ w.length := by
    intro i hi
    obtain ⟨⟨t, b⟩, hq, rfl⟩ := List.mem_map.mp hi
    calc memsize / blocks * (b + 1) ≤ memsize / blocks * blocks :=
          Nat.mul_le_mul_left _ (hok.qsorts_lt hamount hq)
      _ = w.length := by rw [Nat.div_mul_cancel hdvd, hw]
  obtain ⟨w₁, qsorts⟩ := SortRun.exists hfit
  have hbehind : (⟨1, 0⟩ : BlocksMap).isBusy = 1 := rfl
  have hmap := hok.tableReady hbehind
  have hslices := hok.slicesSorted done qsorts hw
  subst hblocks
  obtain ⟨w₂, rounds⟩ := FineRoundsRun.exists (Nat.succ_pos amount) hdvd hslices.length hmap
  have hcoarse := rounds.coarse (Nat.succ_pos amount) hdvd hslices.length hmap
  obtain rfl := hcoarse.eq (Nat.succ_pos amount) hdvd hslices.length hmap
  have htwo : 2 ∣ memsize := (Dvd.intro _ (pow_succ' 2 j).symm).trans hdvd
  obtain ⟨w₃, last, -⟩ := merge_halves htwo (hslices.roundsResult hdvd).1
  exact ⟨w₃, .mk hcounter sorting done qsorts rfl rounds last⟩

omit [LinearOrder τ] in
/-- The number of records as whole windows, the last of which is mapped where it should be. -/
theorem exists_windows {a : Arguments} {file : Window τ} (hpos : 0 < a.memsize)
    (hwindows : a.memsize ∣ file.length) (hoffset : 16 * (file.length - a.memsize) < 2 ^ 31) :
    ∃ m n : ℕ, a.memsize = m ∧ file.length = m * n ∧ 16 * (m * (n - 1 : ℕ) : ℕ) < 2 ^ 31 := by
  obtain ⟨m, hm⟩ : ∃ m : ℕ, a.memsize = m := ⟨a.memsize.toNat, by omega⟩
  rw [hm] at hwindows hoffset hpos
  obtain ⟨n, hlen⟩ := Int.natCast_dvd_natCast.mp hwindows
  refine ⟨m, n, hm, hlen, ?_⟩
  have hlast : m * (n - 1) ≤ file.length - m := by
    rw [hlen, Nat.mul_sub_one]
  rcases Nat.eq_zero_or_pos n with rfl | hn
  · simp
  · have hle : m ≤ m * n := Nat.le_mul_of_pos_right m hn
    omega

/-- Each window ends sorted, with the records it had. -/
theorem FileRun.windows_sorted {pageSize : ℤ} {a : Arguments} {file file' : Window τ}
    (hacc : Accepted pageSize a) (hblocks : a.blocks ∣ a.memsize)
    (hwindows : a.memsize ∣ file.length) (hpos : 0 < a.memsize)
    (hoffset : 16 * (file.length - a.memsize) < 2 ^ 31) (h : FileRun pageSize a 0 file file') :
    file'.Perm file ∧ ∀ i, (i + 1) * a.memsize.toNat ≤ file.length →
      Sorted (slice a.memsize.toNat i file') ∧
        (slice a.memsize.toNat i file').Perm (slice a.memsize.toNat i file) := by
  obtain ⟨m, n, hm, hlen, hoff⟩ := exists_windows hpos hwindows hoffset
  rw [hm, Int.toNat_natCast]
  have hwin := FileRun.windows (k := 0) hacc hm hblocks hlen hoff h
  have hsorted : ∀ i < n, Sorted (slice m i file') ∧ (slice m i file').Perm (slice m i file) :=
    fun i hi => (hwin.2 i hi).2 (Nat.zero_le i)
  refine ⟨perm_of_slices (hwin.1.trans hlen) hlen fun i hi => (hsorted i hi).2, ?_⟩
  intro i hi
  rw [hlen, Nat.mul_comm m n] at hi
  exact hsorted i (Nat.le_of_mul_le_mul_right hi (by omega))

theorem FineFileRun.coarse_of_windows {pageSize : ℤ} {a : Arguments} {file file' : Window τ}
    (hacc : Accepted pageSize a) (hblocks : a.blocks ∣ a.memsize)
    (hwindows : a.memsize ∣ file.length) (hpos : 0 < a.memsize)
    (hoffset : 16 * (file.length - a.memsize) < 2 ^ 31)
    (h : FineFileRun pageSize a 0 file file') : FileRun pageSize a 0 file file' := by
  obtain ⟨m, n, hm, hlen, hoff⟩ := exists_windows hpos hwindows hoffset
  exact FineFileRun.coarse (k := 0) hacc hm hblocks hlen hoff h

/-- However the threads take turns, record by record, the program does to the file what it does
with whole merges: each window ends sorted, with the records it had. -/
theorem file_record_by_record {pageSize argc : ℤ} {a a' : Arguments} {file file' : Window τ}
    (haccepted : checkArgs pageSize argc a = .ok a') (hblocks : a.blocks ∣ a.memsize)
    (hwindows : a.memsize ∣ file.length) (hpos : 0 < a.memsize)
    (hoffset : 16 * (file.length - a.memsize) < 2 ^ 31)
    (h : FineFileRun pageSize a 0 file file') :
    FileRun pageSize a 0 file file' ∧ file'.Perm file ∧
    ∀ i, (i + 1) * a.memsize.toNat ≤ file.length →
      Sorted (slice a.memsize.toNat i file') ∧
        (slice a.memsize.toNat i file').Perm (slice a.memsize.toNat i file) := by
  have hacc := (checkArgs_ok haccepted).2
  have hcoarse := h.coarse_of_windows hacc hblocks hwindows hpos hoffset
  exact ⟨hcoarse, hcoarse.windows_sorted hacc hblocks hwindows hpos hoffset⟩

/-- One window of 16 records in 16 blocks, shared by 9 threads. -/
theorem file_record_by_record_sixteen :
    ∃ file', FineFileRun 16 ⟨16, 16, 8⟩ 0 fallingWindow file' ∧ Sorted (slice 16 0 file') := by
  have hex : ∃ w, FineWindowRun 8 16 16 fallingWindow w :=
    FineWindowRun.exists (k := 4) (by decide) rfl (by decide) (by decide) rfl (by decide)
  obtain ⟨w, hw⟩ := hex
  have hacc : Accepted 16 ⟨16, 16, 8⟩ := {
    memsize := by decide
    pages := by decide
    blocks := ⟨4, by decide⟩
    threads_ge := by decide
    threads_le := by decide
    threads_lt := by decide }
  have hlen : w.length = 16 := by
    have hcoarse : WindowRun 8 16 16 fallingWindow w :=
      hw.coarse (k := 4) (by decide) rfl (by decide) (by decide) rfl
    have hdvd : 16 ∣ 16 := by decide
    exact (hcoarse.sorted (k := 4) (by decide) rfl (by decide) hdvd rfl).2.length_eq
  have hset : writeAt 0 w fallingWindow = w := by
    have hdrop : fallingWindow.drop 16 = [] := rfl
    simp [writeAt, hlen, hdrop]
  have hrun : FineFileRun 16 ⟨16, 16, 8⟩ 0 fallingWindow w := by
    have hrest : FineFileRun 16 ⟨16, 16, 8⟩ (0 + 16) (writeAt 0 w fallingWindow) w := by
      rw [hset]
      exact .finished (by rw [hlen]; decide)
    have hfirst : FineWindowRun 8 16 16 ((fallingWindow.drop 0).take 16) w := hw
    exact .window (by decide) (by decide) hfirst hrest
  exact ⟨w, hrun, ((file_record_by_record (checkArgs_of_accepted (by decide : (4 : ℤ) ≤ 5) hacc)
    (by decide) (by decide) (by decide) (by decide) hrun).2.2 0 (by decide)).1⟩

end OsaspLabs.SortIndex
