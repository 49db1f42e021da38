import Mathlib.Data.Int.Notation
import OsaspLabs.Library.Runs
import OsaspLabs.Library.Tally

/-! # The barrier of LAB_6

The main thread (`createThreads`) has number 0, the workers (`execute`) have the numbers
`1, …, amount`. Only what decides which barrier call a thread makes next is modelled: the
reads and writes of `BLOCKS`, `curSize` and `FILESIZE`. A `long` is an integer. -/

namespace OsaspLabs.SortIndex

open Runs

/-- The rendezvous that the code means, by the line of each call. -/
inductive Rendezvous where
  /-- Line 204 of the main thread, 152 of the workers. -/
  | begin
  /-- Lines 207 and 156. -/
  | sorted
  /-- Line 104. -/
  | entered
  /-- Line 111. -/
  | halved
  /-- Line 124. -/
  | merged
  /-- Lines 216 and 159. -/
  | next
  /-- Lines 218 and 162. -/
  | finish
  deriving DecidableEq

inductive BarrierPc where
  /-- Lines 196 and 151: `FILESIZE` is read, then `curSize`. -/
  | readFile
  | readCur (fileSize : ℤ)
  /-- About to call `pthread_barrier_wait`, or waiting in it. -/
  | barrier (r : Rendezvous) (called : Bool)
  | sortPhase
  /-- Line 103. -/
  | test
  /-- Line 106. -/
  | readBlocks
  | writeBlocks (half : ℤ)
  /-- Line 107. -/
  | reset (i : ℤ)
  /-- Line 112. -/
  | loop (i : ℤ)
  /-- Line 121. -/
  | merge (i : ℤ)
  /-- Line 211. -/
  | readCurSize
  | writeCurSize (curSize : ℤ)
  /-- Line 212. -/
  | testCur
  | testFile (curSize : ℤ)
  /-- Line 213. -/
  | readAddr
  | writeFile
  /-- Line 215. -/
  | restoreBlocks
  /-- Line 160. -/
  | printFile
  | printCur
  | done
  deriving DecidableEq

structure Globals where
  BLOCKS : ℤ
  curSize : ℤ
  FILESIZE : ℤ
  deriving DecidableEq

structure BarrierState where
  globals : Globals
  /-- The threads by their number. -/
  pcs : List BarrierPc

/-- The arguments of `createThreads` and the number of records in the file. -/
structure Setup where
  amount : ℕ
  memsize : ℤ
  blocks : ℤ
  records : ℤ

/-- The state once all threads are created. -/
def barrierInit (c : Setup) : BarrierState :=
  ⟨⟨2 * c.blocks, 0, c.records⟩, List.replicate (c.amount + 1) .readFile⟩

inductive BarrierAction where
  /-- The thread `no` takes its next step; `claimed` tells whether it finds the block of
  its loop free. -/
  | run (no : ℕ) (claimed : Bool)
  /-- All threads wait and the barrier lets them go. -/
  | release

/-- One step of thread `no` between two barriers. -/
def barrierStepAt (c : Setup) (no : ℕ) (claimed : Bool) (g : Globals) :
    BarrierPc → Option (Globals × BarrierPc)
  | .readFile => some (g, .readCur g.FILESIZE)
  | .readCur fileSize =>
      some (g, .barrier (if g.curSize < fileSize then .begin else .finish) false)
  | .barrier r called => if called then none else some (g, .barrier r true)
  | .sortPhase => some (g, .barrier .sorted false)
  | .test =>
      some (g, if 4 < g.BLOCKS then .barrier .entered false
        else if no = 0 then .readCurSize else .barrier .next false)
  | .readBlocks => some (g, .writeBlocks (g.BLOCKS.tdiv 2))
  | .writeBlocks half => some ({ g with BLOCKS := half }, .reset 0)
  | .reset i => some (g, if i < g.BLOCKS then .reset (i + 1) else .barrier .halved false)
  | .loop i =>
      some (g, if i ≤ g.BLOCKS then if claimed then .merge i else .loop (i + 2)
        else .barrier .merged false)
  | .merge i => some (g, .loop (i + 2))
  | .readCurSize => some (g, .writeCurSize g.curSize)
  | .writeCurSize curSize => some ({ g with curSize := curSize + c.memsize }, .testCur)
  | .testCur => some (g, .testFile g.curSize)
  | .testFile curSize => some (g, if curSize < g.FILESIZE then .readAddr else .restoreBlocks)
  | .readAddr => some (g, .writeFile)
  | .writeFile => some ({ g with FILESIZE := c.records }, .restoreBlocks)
  | .restoreBlocks => some ({ g with BLOCKS := 2 * c.blocks }, .barrier .next false)
  | .printFile => some (g, .printCur)
  | .printCur => some (g, .readFile)
  | .done => none

/-- Where thread `no` goes on after a barrier call. -/
def afterBarrier (no : ℕ) : Rendezvous → BarrierPc
  | .begin => .sortPhase
  | .sorted => .test
  | .entered => if no = 0 then .readBlocks else .barrier .halved false
  | .halved => .loop 0
  | .merged => .test
  | .next => if no = 0 then .readFile else .printFile
  | .finish => .done

def BarrierPc.waits : BarrierPc → Bool
  | .barrier _ called => called
  | _ => false

def BarrierPc.released (no : ℕ) : BarrierPc → BarrierPc
  | .barrier r _ => afterBarrier no r
  | pc => pc

def barrierStep (c : Setup) (s : BarrierState) : BarrierAction → Option BarrierState
  | .run no claimed =>
      match s.pcs[no]? with
      | none => none
      | some pc =>
          match barrierStepAt c no claimed s.globals pc with
          | none => none
          | some (g, pc') => some ⟨g, s.pcs.set no pc'⟩
  | .release =>
      if s.pcs.all BarrierPc.waits then some { s with pcs := s.pcs.mapIdx BarrierPc.released }
      else none

/-- Whenever the barrier can release, all threads are at the same rendezvous. -/
def ReleasesTogether (s : BarrierState) : Prop :=
  (∀ pc ∈ s.pcs, pc.waits = true) → ∃ r, ∀ pc ∈ s.pcs, pc = .barrier r true

/-- The main thread restores `BLOCKS` only when no worker has yet to read it on line 103. -/
def RestoresLate (s : BarrierState) (a : BarrierAction) : Prop :=
  ∀ (no : ℕ) (claimed : Bool), a = .run no claimed → s.pcs[no]? = some .restoreBlocks →
    .test ∉ s.pcs

instance (s : BarrierState) : DecidablePred (RestoresLate s)
  | .release => isTrue fun _ _ h => by cases h
  | .run no claimed =>
      decidable_of_iff (s.pcs[no]? = some .restoreBlocks → .test ∉ s.pcs)
        ⟨fun h _ _ heq => by cases heq; exact h, fun h => h no claimed rfl⟩

/-- A step is one of a single thread, or all threads wait and go on. -/
theorem barrierStep_cases {c : Setup} {s s' : BarrierState} {a : BarrierAction}
    (h : barrierStep c s a = some s') :
    (∃ no claimed pc g pc', a = .run no claimed ∧ s.pcs[no]? = some pc ∧
      barrierStepAt c no claimed s.globals pc = some (g, pc') ∧
        s' = ⟨g, s.pcs.set no pc'⟩) ∨
    ((∀ pc ∈ s.pcs, pc.waits = true) ∧
      s' = { s with pcs := s.pcs.mapIdx BarrierPc.released }) := by
  cases a with
  | run no claimed =>
      simp only [barrierStep] at h
      split at h
      · cases h
      · rename_i pc hpc
        split at h
        · cases h
        · rename_i g pc' hat
          exact .inl ⟨no, claimed, pc, g, pc', rfl, hpc, hat, (Option.some.inj h).symm⟩
  | release =>
      simp only [barrierStep] at h
      split at h
      · rename_i hwait
        exact .inr ⟨List.all_eq_true.mp hwait, (Option.some.inj h).symm⟩
      · cases h

theorem getElem?_released {pcs : List BarrierPc} {no : ℕ} {pc' : BarrierPc}
    (h : (pcs.mapIdx BarrierPc.released)[no]? = some pc') :
    ∃ pc, pcs[no]? = some pc ∧ pc' = pc.released no := by
  rw [List.getElem?_mapIdx] at h
  obtain ⟨pc, hpc, rfl⟩ := Option.map_eq_some_iff.mp h
  exact ⟨pc, hpc, rfl⟩

/-! ## Threads in step -/

/-- The stretch of the code between two rendezvous. -/
inductive Segment where
  | top
  | sort
  /-- From the test on line 103 on. -/
  | head
  /-- After the main thread has restored `BLOCKS`. -/
  | left
  | halve
  | merge
  | over

/-- Where thread `no` can be while all threads are in one stretch. -/
def InSegment (g : Globals) (no : ℕ) : Segment → BarrierPc → Prop
  | .top, .printFile | .top, .printCur | .top, .readFile => True
  | .top, .readCur fileSize => fileSize = g.FILESIZE
  | .top, .barrier .begin _ => g.curSize < g.FILESIZE
  | .top, .barrier .finish _ => ¬ g.curSize < g.FILESIZE
  | .sort, .sortPhase | .sort, .barrier .sorted _ => True
  | .head, .test => True
  | .head, .barrier .entered _ => 4 < g.BLOCKS
  | .head, .barrier .next _ => no ≠ 0 ∧ ¬ 4 < g.BLOCKS
  | .head, .readCurSize | .head, .writeCurSize _ | .head, .testCur | .head, .testFile _
  | .head, .readAddr | .head, .writeFile | .head, .restoreBlocks => no = 0 ∧ ¬ 4 < g.BLOCKS
  | .left, .barrier .next _ => True
  | .halve, .readBlocks | .halve, .writeBlocks _ | .halve, .reset _ => no = 0
  | .halve, .barrier .halved _ => True
  | .merge, .loop _ | .merge, .merge _ | .merge, .barrier .merged _ => True
  | .over, .done => True
  | _, _ => False

/-- All threads are in the stretch `seg`. -/
structure InStep (s : BarrierState) (seg : Segment) : Prop where
  main : 0 < s.pcs.length
  pcs : ∀ (no : ℕ) (pc : BarrierPc), s.pcs[no]? = some pc → InSegment s.globals no seg pc

theorem inSegment_head {g g' : Globals} {no : ℕ} {pc : BarrierPc} (hg : g'.BLOCKS = g.BLOCKS)
    (h : InSegment g no .head pc) : InSegment g' no .head pc := by
  cases pc with
  | barrier r called => cases r <;> simp_all [InSegment]
  | _ => simp_all [InSegment]

theorem inSegment_halve {g g' : Globals} {no : ℕ} {pc : BarrierPc}
    (h : InSegment g no .halve pc) : InSegment g' no .halve pc := by
  cases pc with
  | barrier r called => cases r <;> simp_all [InSegment]
  | _ => simp_all [InSegment]

/-- A step other than the restoring one keeps its thread in the stretch, and the others
notice nothing. -/
theorem barrierStepAt_inSegment {c : Setup} {no : ℕ} {claimed : Bool} {g g' : Globals}
    {seg : Segment} {pc pc' : BarrierPc} (h : InSegment g no seg pc)
    (hpc : pc ≠ .restoreBlocks) (hstep : barrierStepAt c no claimed g pc = some (g', pc')) :
    InSegment g' no seg pc' ∧
      ∀ u pcu, InSegment g u seg pcu → InSegment g' u seg pcu := by
  cases pc with
  | restoreBlocks => exact absurd rfl hpc
  | done => cases hstep
  | barrier r called =>
      cases called with
      | true => cases hstep
      | false =>
          cases hstep
          exact ⟨by cases seg <;> cases r <;> exact h, fun _ _ hu => hu⟩
  | readCur fileSize =>
      cases hstep
      refine ⟨?_, fun _ _ hu => hu⟩
      cases seg <;> simp only [InSegment] at h
      subst h
      split <;> simp_all [InSegment]
  | test =>
      cases hstep
      refine ⟨?_, fun _ _ hu => hu⟩
      cases seg <;> simp only [InSegment] at h
      split
      · simp_all [InSegment]
      · split <;> simp_all [InSegment]
  | writeBlocks half =>
      cases hstep
      cases seg <;> simp only [InSegment] at h
      exact ⟨h, fun _ _ => inSegment_halve⟩
  | writeCurSize curSize =>
      cases hstep
      cases seg <;> simp only [InSegment] at h
      exact ⟨h, fun _ _ => inSegment_head rfl⟩
  | writeFile =>
      cases hstep
      cases seg <;> simp only [InSegment] at h
      exact ⟨h, fun _ _ => inSegment_head rfl⟩
  | reset i | testFile curSize =>
      cases hstep
      refine ⟨?_, fun _ _ hu => hu⟩
      cases seg <;> simp only [InSegment] at h
      split <;> simp_all [InSegment]
  | loop i =>
      cases hstep
      refine ⟨?_, fun _ _ hu => hu⟩
      cases seg <;> simp only [InSegment] at h
      split
      · split <;> simp_all [InSegment]
      · simp_all [InSegment]
  | _ =>
      cases hstep
      refine ⟨?_, fun _ _ hu => hu⟩
      cases seg <;> simp only [InSegment] at h
      simp_all [InSegment]

/-- A step of one thread keeps all threads in step, if the main thread restores late. -/
theorem InStep.run {c : Setup} {no : ℕ} {claimed : Bool} {s : BarrierState} {seg : Segment}
    {g' : Globals} {pc pc' : BarrierPc} (h : InStep s seg) (hpc : s.pcs[no]? = some pc)
    (hlate : pc = .restoreBlocks → .test ∉ s.pcs)
    (hstep : barrierStepAt c no claimed s.globals pc = some (g', pc')) :
    ∃ seg', InStep ⟨g', s.pcs.set no pc'⟩ seg' := by
  have hmain : 0 < (s.pcs.set no pc').length := by
    rw [List.length_set]
    exact h.main
  have hat := h.pcs no pc hpc
  by_cases hrestore : pc = .restoreBlocks
  · subst hrestore
    cases hstep
    refine ⟨.left, hmain, fun u pcu hu => ?_⟩
    cases seg <;> simp only [InSegment] at hat
    obtain ⟨rfl, hsmall⟩ := hat
    rcases getElem?_set_cases hu with ⟨rfl, rfl⟩ | ⟨hne, hold⟩
    · trivial
    · have hother := h.pcs u pcu hold
      have htest : pcu ≠ .test := fun heq => hlate rfl (heq ▸ List.mem_of_getElem? hold)
      cases pcu with
      | barrier r called =>
          cases r with
          | next => trivial
          | entered => exact absurd hother hsmall
          | _ => exact hother
      | test => exact absurd rfl htest
      | _ => simp_all [InSegment]
  · obtain ⟨hself, hothers⟩ := barrierStepAt_inSegment hat hrestore hstep
    refine ⟨seg, hmain, fun u pcu hu => ?_⟩
    rcases getElem?_set_cases hu with ⟨rfl, rfl⟩ | ⟨_, hold⟩
    · exact hself
    · exact hothers u pcu (h.pcs u pcu hold)

/-- The rendezvous that ends a stretch; the main thread decides for the others. -/
def Segment.rendezvous (g : Globals) : Segment → Rendezvous
  | .top => if g.curSize < g.FILESIZE then .begin else .finish
  | .sort => .sorted
  | .head => .entered
  | .left => .next
  | .halve => .halved
  | .merge => .merged
  | .over => .finish

theorem waits_iff {pc : BarrierPc} : pc.waits = true ↔ ∃ r, pc = .barrier r true := by
  cases pc <;> simp [BarrierPc.waits]

theorem InSegment.rendezvous {g : Globals} {no : ℕ} {seg : Segment} {r : Rendezvous}
    (h : InSegment g no seg (.barrier r true)) (hmain : seg = .head → 4 < g.BLOCKS) :
    r = seg.rendezvous g := by
  cases seg <;> cases r <;> simp_all [InSegment, Segment.rendezvous]

/-- Threads in step wait at one rendezvous. -/
theorem InStep.together {s : BarrierState} {seg : Segment} (h : InStep s seg)
    (hwait : ∀ pc ∈ s.pcs, pc.waits = true) :
    ∀ pc ∈ s.pcs, pc = .barrier (seg.rendezvous s.globals) true := by
  have hmain : seg = .head → 4 < s.globals.BLOCKS := by
    rintro rfl
    have h0 := h.pcs 0 _ (List.getElem?_eq_getElem h.main)
    obtain ⟨r, hr⟩ := waits_iff.mp (hwait _ (List.getElem_mem h.main))
    rw [hr] at h0
    cases r <;> simp_all [InSegment]
  intro pc hmem
  obtain ⟨no, hno⟩ := List.mem_iff_getElem?.mp hmem
  obtain ⟨r, rfl⟩ := waits_iff.mp (hwait pc hmem)
  rw [(h.pcs no _ hno).rendezvous hmain]

/-- The stretch that a rendezvous opens. -/
def Rendezvous.opens : Rendezvous → Segment
  | .begin => .sort
  | .sorted => .head
  | .entered => .halve
  | .halved => .merge
  | .merged => .head
  | .next => .top
  | .finish => .over

theorem afterBarrier_inSegment (g : Globals) (no : ℕ) (r : Rendezvous) :
    InSegment g no r.opens (afterBarrier no r) := by
  cases r with
  | entered | next =>
      simp only [afterBarrier, Rendezvous.opens]
      split <;> simp_all [InSegment]
  | _ => trivial

theorem InStep.release {s : BarrierState} {seg : Segment} (h : InStep s seg)
    (hwait : ∀ pc ∈ s.pcs, pc.waits = true) :
    InStep { s with pcs := s.pcs.mapIdx BarrierPc.released }
      (seg.rendezvous s.globals).opens := by
  refine ⟨by rw [List.length_mapIdx]; exact h.main, fun no pc' hpc' => ?_⟩
  obtain ⟨pc, hpc, rfl⟩ := getElem?_released hpc'
  rw [h.together hwait pc (List.mem_of_getElem? hpc)]
  exact afterBarrier_inSegment s.globals no _

theorem inStep_of_reaches {c : Setup} {s : BarrierState}
    (h : Reaches (barrierStep c) RestoresLate (barrierInit c) s) : ∃ seg, InStep s seg := by
  refine h.invariant (I := fun u => ∃ seg, InStep u seg) ⟨.top, ?_, ?_⟩ ?_
  · simp [barrierInit]
  · intro no pc hpc
    obtain rfl := List.eq_of_mem_replicate (List.mem_of_getElem? hpc)
    trivial
  · rintro u a v ⟨seg, hu⟩ hlate hstep
    rcases barrierStep_cases hstep with ⟨no, claimed, pc, g, pc', ha, hpc, hat, rfl⟩ | ⟨hwait, rfl⟩
    · exact hu.run hpc (fun hpc' => hlate no claimed ha (hpc' ▸ hpc)) hat
    · exact ⟨_, hu.release hwait⟩

/-- As long as the main thread restores `BLOCKS` only after every worker has left the
merge loop, the barrier never releases threads at different rendezvous. -/
theorem barrier_releases_together (c : Setup) (s : BarrierState)
    (h : Reaches (barrierStep c) RestoresLate (barrierInit c) s) : ReleasesTogether s := by
  obtain ⟨seg, hs⟩ := inStep_of_reaches h
  exact fun hwait => ⟨seg.rendezvous s.globals, hs.together hwait⟩

/-! ## A run in which a worker is late -/

def failingSetup : Setup := ⟨8, 4096, 16, 4096⟩

/-- Each of the 8 workers takes `n` steps. -/
def workersRun (n : ℕ) : List BarrierAction :=
  (List.range 8).flatMap fun w => List.replicate n (.run (w + 1) false)

/-- From the test on line 103 to the end of the round with `BLOCKS = B`; the main thread
claims every block. -/
def roundRun (B : ℕ) : List BarrierAction :=
  List.replicate 2 (.run 0 false) ++ workersRun 2 ++ [.release] ++
  List.replicate (B + 4) (.run 0 false) ++ workersRun 1 ++ [.release] ++
  List.replicate B (.run 0 true) ++ List.replicate 3 (.run 0 false) ++
  workersRun (B / 2 + 3) ++ [.release]

/-- All rounds of the only window; then the main thread goes on to line 216 before any
worker tests `BLOCKS` on line 103 again. -/
def lateWorkers : List BarrierAction :=
  List.replicate 3 (.run 0 false) ++ workersRun 3 ++ [.release] ++
  List.replicate 2 (.run 0 false) ++ workersRun 2 ++ [.release] ++
  roundRun 16 ++ roundRun 8 ++ roundRun 4 ++
  List.replicate 7 (.run 0 false) ++ workersRun 2

theorem barrier_releases_apart :
    ∃ s, Reaches (barrierStep failingSetup) anything (barrierInit failingSetup) s ∧
      ¬ ReleasesTogether s := by
  have hrun : (exec (barrierStep failingSetup) (barrierInit failingSetup) lateWorkers).map
      BarrierState.pcs =
        some (.barrier .next true :: List.replicate 8 (.barrier .entered true)) := by
    decide +kernel
  obtain ⟨s, hexec, hpcs⟩ := Option.map_eq_some_iff.mp hrun
  refine ⟨s, reaches_anything_of_exec hexec, fun htogether => ?_⟩
  obtain ⟨r, hr⟩ := htogether (by simp [hpcs, BarrierPc.waits])
  have hnext := hr (.barrier .next true) (by simp [hpcs])
  have hentered := hr (.barrier .entered true) (by simp [hpcs])
  rw [← hentered] at hnext
  exact absurd hnext (by decide)

/-- The same rounds, but the workers test `BLOCKS` on line 103 and wait at line 159 before the
main thread goes on; then all threads find the only window done and wait to finish. -/
def promptWorkers : List BarrierAction :=
  List.replicate 3 (.run 0 false) ++ workersRun 3 ++ [.release] ++
  List.replicate 2 (.run 0 false) ++ workersRun 2 ++ [.release] ++
  roundRun 16 ++ roundRun 8 ++ roundRun 4 ++
  workersRun 2 ++ List.replicate 7 (.run 0 false) ++ [.release] ++
  List.replicate 3 (.run 0 false) ++ workersRun 5

/-- Line 215 is on this run, and twelve releases lie behind its last state. -/
theorem barrier_releases_together_window :
    ∃ s, Reaches (barrierStep failingSetup) RestoresLate (barrierInit failingSetup) s ∧
      s.pcs = List.replicate 9 (.barrier .finish true) ∧ ReleasesTogether s := by
  have hrun : (exec (fun u a => if RestoresLate u a then barrierStep failingSetup u a else none)
      (barrierInit failingSetup) promptWorkers).map BarrierState.pcs =
        some (List.replicate 9 (.barrier .finish true)) := by
    decide +kernel
  obtain ⟨s, hexec, hpcs⟩ := Option.map_eq_some_iff.mp hrun
  have hreach := reaches_of_guarded hexec
  exact ⟨s, hreach, hpcs, barrier_releases_together failingSetup s hreach⟩

end OsaspLabs.SortIndex
