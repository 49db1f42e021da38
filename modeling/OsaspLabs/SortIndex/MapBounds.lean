import OsaspLabs.SortIndex.Barrier
import OsaspLabs.SortIndex.File

/-! # The accesses to the table of LAB_6

`createThreads` allocates `blocks` entries. The loop of a merge round goes on to `i = BLOCKS`,
and in the first round of a window `BLOCKS` is `blocks`. -/

namespace OsaspLabs.SortIndex

open Runs

/-- The index of `map` that thread `no` uses at its place in `sortPhase`. -/
def SortPc.mapIndex (blocks no : ℕ) : SortPc → Option ℕ
  | .reserve => some no
  | .scan i => if i < blocks then some i else none
  | .retest i | .claim i => some i
  | _ => none

/-- The index of `map` that a thread uses at its place in `mergePhase`. -/
def BarrierPc.mapIndex (g : Globals) : BarrierPc → Option ℤ
  | .reset i => if i < g.BLOCKS then some i else none
  | .loop i => if i ≤ g.BLOCKS then some i else none
  | _ => none

def Arguments.setup (a : Arguments) (records : ℤ) : Setup :=
  ⟨a.threads.toNat, a.memsize, a.blocks, records⟩

/-- Every access hits one of the `blocks` entries. -/
structure MapInBounds (c : Setup) : Prop where
  sortPhase : ∀ s, Reaches (sortStep c.blocks.toNat) anything
    (sortInit c.amount c.blocks.toNat) s → ∀ (no i : ℕ) (pc : SortPc), s.pcs[no]? = some pc →
      pc.mapIndex c.blocks.toNat no = some i → i < c.blocks
  mergePhase : ∀ s, Reaches (barrierStep c) anything (barrierInit c) s →
    ∀ (no : ℕ) (i : ℤ) (pc : BarrierPc), s.pcs[no]? = some pc →
      pc.mapIndex s.globals = some i → 0 ≤ i ∧ i < c.blocks

/-! ## The sort phase -/

theorem SortOk.mapIndex_lt {amount blocks no i : ℕ} {s : SortState} {pc : SortPc}
    (h : SortOk amount blocks s) (hamount : amount < blocks) (hpc : s.pcs[no]? = some pc)
    (hi : pc.mapIndex blocks no = some i) : i < blocks := by
  have hok := h.pcs no pc hpc
  cases pc with
  | reserve =>
      obtain rfl := Option.some.inj hi
      obtain ⟨hlt, _⟩ := List.getElem?_eq_some_iff.mp hpc
      have hthreads := h.threads
      omega
  | scan j =>
      obtain ⟨hlt, hj⟩ := Option.ite_none_right_eq_some.mp hi
      exact Option.some.inj hj ▸ hlt
  | retest j =>
      obtain rfl := Option.some.inj hi
      exact hok.2.2.2
  | claim j =>
      obtain rfl := Option.some.inj hi
      exact hok.2.2.2.1
  | ownSort | ownSorting | lock | unlockTaken | unlock | sort | sorting | done => cases hi

/-! ## A file without records -/

/-- The threads that find nothing to sort go straight to the last barrier. -/
def Idle : BarrierPc → Prop
  | .readFile | .done | .barrier .finish _ => True
  | .readCur fileSize => fileSize ≤ 0
  | _ => False

theorem Idle.mapIndex {g : Globals} {pc : BarrierPc} (h : Idle pc) : pc.mapIndex g = none := by
  cases pc with
  | reset | loop => cases h
  | _ => rfl

theorem Idle.released {no : ℕ} {pc : BarrierPc} (h : Idle pc) : Idle (pc.released no) := by
  cases pc with
  | barrier r called =>
      cases r with
      | finish => trivial
      | _ => cases h
  | _ => exact h

theorem Idle.step {c : Setup} {no : ℕ} {claimed : Bool} {g g' : Globals} {pc pc' : BarrierPc}
    (hcur : g.curSize = 0) (hfile : g.FILESIZE ≤ 0) (h : Idle pc)
    (hstep : barrierStepAt c no claimed g pc = some (g', pc')) : g' = g ∧ Idle pc' := by
  cases pc with
  | readFile =>
      cases hstep
      exact ⟨rfl, hfile⟩
  | readCur fileSize =>
      cases hstep
      rw [hcur, if_neg (Int.not_lt.mpr h)]
      exact ⟨rfl, trivial⟩
  | barrier r called =>
      cases r with
      | finish =>
          cases called with
          | true => cases hstep
          | false =>
              cases hstep
              exact ⟨rfl, trivial⟩
      | _ => cases h
  | done => cases hstep
  | _ => cases h

theorem idle_of_reaches {c : Setup} {s : BarrierState} (hrecords : c.records ≤ 0)
    (h : Reaches (barrierStep c) anything (barrierInit c) s) :
    s.globals = (barrierInit c).globals ∧ ∀ pc ∈ s.pcs, Idle pc := by
  refine h.invariant (I := fun u => u.globals = (barrierInit c).globals ∧ ∀ pc ∈ u.pcs, Idle pc)
    ⟨rfl, fun pc hpc => ?_⟩ ?_
  · obtain rfl := List.eq_of_mem_replicate hpc
    trivial
  · rintro ⟨g, pcs⟩ a v ⟨rfl, hidle⟩ - hstep
    rcases barrierStep_cases hstep with ⟨no, claimed, pc, g', pc', _, hpc, hat, rfl⟩ | ⟨_, rfl⟩
    · obtain ⟨rfl, hpc'⟩ := (hidle pc (List.mem_of_getElem? hpc)).step rfl hrecords hat
      exact ⟨rfl, forall_mem_set hidle hpc'⟩
    · refine ⟨rfl, fun pc hpc => ?_⟩
      obtain ⟨no, hno⟩ := List.mem_iff_getElem?.mp hpc
      obtain ⟨pc', hpc', rfl⟩ := getElem?_released hno
      exact (hidle pc' (List.mem_of_getElem? hpc')).released

/-! ## A run to the end of the first round -/

/-- Steps of thread `no` alone that write no global. -/
abbrev OwnRun (c : Setup) (no : ℕ) (g : Globals) : BarrierPc → BarrierPc → Prop :=
  Relation.ReflTransGen fun pc pc' => ∃ claimed, barrierStepAt c no claimed g pc = some (g, pc')

theorem OwnRun.reaches {c : Setup} {no : ℕ} {g : Globals} {pc pc' : BarrierPc}
    {pcs : List BarrierPc} (h : OwnRun c no g pc pc') (hpc : pcs[no]? = some pc) :
    Reaches (barrierStep c) anything ⟨g, pcs⟩ ⟨g, pcs.set no pc'⟩ := by
  obtain ⟨hlt, hget⟩ := List.getElem?_eq_some_iff.mp hpc
  induction h with
  | refl =>
      rw [← hget, List.set_getElem_self]
  | @tail pc₁ pc₂ _ hstep ih =>
      obtain ⟨claimed, hstep⟩ := hstep
      refine ih.tail ⟨.run no claimed, trivial, ?_⟩
      simp only [barrierStep, List.getElem?_set_self hlt, hstep, List.set_set]

/-- The workers do the same one after the other. -/
theorem reaches_workers {c : Setup} {g : Globals} {w w' : BarrierPc}
    (h : ∀ no ≠ 0, OwnRun c no g w w') (n : ℕ) {front : List BarrierPc} (hfront : front ≠ []) :
    Reaches (barrierStep c) anything ⟨g, front ++ List.replicate n w⟩
      ⟨g, front ++ List.replicate n w'⟩ := by
  induction n generalizing front with
  | zero => exact .refl
  | succ n ih =>
      have hno : front.length ≠ 0 := fun h0 => hfront (List.length_eq_zero_iff.mp h0)
      have hget : (front ++ w :: List.replicate n w)[front.length]? = some w := by simp
      have hfirst := (h front.length hno).reaches hget
      have hnil : front ++ [w'] ≠ [] := by simp
      have hrest := ih hnil
      rw [List.set_append_right _ _ (Nat.le_refl _), Nat.sub_self, List.set_cons_zero] at hfirst
      rw [List.append_assoc, List.append_assoc] at hrest
      exact hfirst.trans hrest

/-- The main thread and `n` workers, each worker at the same place. -/
def parallel (g : Globals) (m w : BarrierPc) (n : ℕ) : BarrierState :=
  ⟨g, m :: List.replicate n w⟩

theorem reaches_parallel {c : Setup} {g : Globals} {m m' w w' : BarrierPc} (n : ℕ)
    (hm : OwnRun c 0 g m m') (hw : ∀ no ≠ 0, OwnRun c no g w w') :
    Reaches (barrierStep c) anything (parallel g m w n) (parallel g m' w' n) := by
  have hmain : (m :: List.replicate n w)[0]? = some m := rfl
  exact (hm.reaches hmain).trans (reaches_workers hw n (List.cons_ne_nil m' []))

theorem reaches_release {c : Setup} {g : Globals} {r : Rendezvous} {w : BarrierPc} (n : ℕ)
    (hw : ∀ no ≠ 0, afterBarrier no r = w) :
    Reaches (barrierStep c) anything (parallel g (.barrier r true) (.barrier r true) n)
      (parallel g (afterBarrier 0 r) w n) := by
  refine .single ⟨.release, trivial, ?_⟩
  have hwaits : (BarrierPc.barrier r true :: List.replicate n (.barrier r true)).all
      BarrierPc.waits = true := by
    simp [BarrierPc.waits]
  have hworkers : (List.replicate n (BarrierPc.barrier r true)).mapIdx
      (fun i => BarrierPc.released (i + 1)) = List.replicate n w := by
    refine List.eq_replicate_iff.mpr ⟨by simp, fun pc hpc => ?_⟩
    obtain ⟨i, hi, rfl⟩ := List.mem_mapIdx.mp hpc
    simp only [List.getElem_replicate, BarrierPc.released]
    exact hw (i + 1) (Nat.succ_ne_zero i)
  simp only [barrierStep, parallel, hwaits, if_true, List.mapIdx_cons, hworkers]
  rfl

theorem beginRun {c : Setup} {no : ℕ} {g : Globals} (hmore : g.curSize < g.FILESIZE) :
    OwnRun c no g .readFile (.barrier .begin true) := by
  have hread : barrierStepAt c no false g (.readCur g.FILESIZE) =
      some (g, .barrier .begin false) := by
    rw [barrierStepAt, if_pos hmore]
  exact ((Relation.ReflTransGen.single ⟨false, rfl⟩).tail ⟨false, hread⟩).tail ⟨false, rfl⟩

theorem sortRun {c : Setup} {no : ℕ} {g : Globals} :
    OwnRun c no g .sortPhase (.barrier .sorted true) :=
  (Relation.ReflTransGen.single ⟨false, rfl⟩).tail ⟨false, rfl⟩

theorem testRun {c : Setup} {no : ℕ} {g : Globals} (hbig : 4 < g.BLOCKS) :
    OwnRun c no g .test (.barrier .entered true) := by
  have htest : barrierStepAt c no false g .test = some (g, .barrier .entered false) := by
    rw [barrierStepAt, if_pos hbig]
  exact (Relation.ReflTransGen.single ⟨false, htest⟩).tail ⟨false, rfl⟩

/-- The main thread halves `BLOCKS`. -/
theorem reaches_halved {c : Setup} {g : Globals} {w : BarrierPc} (n : ℕ) :
    Reaches (barrierStep c) anything (parallel g .readBlocks w n)
      (parallel { g with BLOCKS := g.BLOCKS.tdiv 2 } (.reset 0) w n) :=
  .head ⟨.run 0 false, trivial, rfl⟩ (.single ⟨.run 0 false, trivial, rfl⟩)

/-- The main thread frees `n` blocks. -/
theorem resetRun {c : Setup} {g : Globals} (n : ℕ) (hn : n ≤ g.BLOCKS) :
    OwnRun c 0 g (.reset 0) (.reset n) := by
  induction n with
  | zero => exact .refl
  | succ n ih =>
      refine (ih (by omega)).tail ⟨false, ?_⟩
      rw [barrierStepAt, if_pos (by omega), Nat.cast_succ]

theorem freeRun {c : Setup} {g : Globals} (n : ℕ) (hn : g.BLOCKS = n) :
    OwnRun c 0 g (.reset 0) (.barrier .halved true) := by
  have hend : barrierStepAt c 0 false g (.reset n) = some (g, .barrier .halved false) := by
    rw [barrierStepAt, hn, if_neg (Int.lt_irrefl _)]
  exact ((resetRun n (Int.le_of_eq hn.symm)).tail ⟨false, hend⟩).tail ⟨false, rfl⟩

/-- A thread that runs alone claims and merges every block. -/
theorem loopRun {c : Setup} {g : Globals} (n : ℕ) (hn : 2 * n ≤ g.BLOCKS) :
    OwnRun c 0 g (.loop 0) (.loop (2 * n : ℕ)) := by
  induction n with
  | zero => exact .refl
  | succ n ih =>
      have hclaim : barrierStepAt c 0 true g (.loop (2 * n : ℕ)) =
          some (g, .merge (2 * n : ℕ)) := by
        rw [barrierStepAt, if_pos (by omega), if_pos rfl]
      exact ((ih (by omega)).tail ⟨true, hclaim⟩).tail ⟨true, rfl⟩

/-- The main thread comes to the end of the first round of the first window. -/
theorem reaches_loop_blocks {c : Setup} {n : ℕ} (hrecords : 0 < c.records)
    (hblocks : c.blocks = 2 * n) (hn : 2 ≤ n) :
    ∃ s, Reaches (barrierStep c) anything (barrierInit c) s ∧ s.globals.BLOCKS = c.blocks ∧
      s.pcs[0]? = some (.loop c.blocks) := by
  let g : Globals := ⟨2 * c.blocks, 0, c.records⟩
  let g' : Globals := ⟨c.blocks, 0, c.records⟩
  have hbig : 4 < g.BLOCKS := by
    simp only [g]
    omega
  have hhalf : { g with BLOCKS := g.BLOCKS.tdiv 2 } = g' := by
    have hdiv : (2 * c.blocks).tdiv 2 = c.blocks := Int.mul_tdiv_cancel_left _ (by decide)
    simp only [g, g', hdiv]
  have hloop : OwnRun c 0 g' (.loop 0) (.loop c.blocks) := by
    have hrun := loopRun (c := c) (g := g') n (Int.le_of_eq hblocks.symm)
    rwa [Nat.cast_mul, Nat.cast_two, ← hblocks] at hrun
  refine ⟨parallel g' (.loop c.blocks) (.loop 0) c.amount, ?_, rfl, rfl⟩
  calc
    Reaches (barrierStep c) anything (parallel g .readFile .readFile c.amount)
        (parallel g (.barrier .begin true) (.barrier .begin true) c.amount) :=
      reaches_parallel _ (beginRun hrecords) fun _ _ => beginRun hrecords
    Reaches (barrierStep c) anything _ (parallel g .sortPhase .sortPhase c.amount) :=
      reaches_release _ fun _ _ => rfl
    Reaches (barrierStep c) anything _
        (parallel g (.barrier .sorted true) (.barrier .sorted true) c.amount) :=
      reaches_parallel _ sortRun fun _ _ => sortRun
    Reaches (barrierStep c) anything _ (parallel g .test .test c.amount) :=
      reaches_release _ fun _ _ => rfl
    Reaches (barrierStep c) anything _
        (parallel g (.barrier .entered true) (.barrier .entered true) c.amount) :=
      reaches_parallel _ (testRun hbig) fun _ _ => testRun hbig
    Reaches (barrierStep c) anything _
        (parallel g .readBlocks (.barrier .halved false) c.amount) :=
      reaches_release _ fun no hno => if_neg hno
    Reaches (barrierStep c) anything _
        (parallel g' (.reset 0) (.barrier .halved false) c.amount) :=
      hhalf ▸ reaches_halved c.amount
    Reaches (barrierStep c) anything _
        (parallel g' (.barrier .halved true) (.barrier .halved true) c.amount) :=
      reaches_parallel _ (freeRun (2 * n) (by simp [g', hblocks])) fun no _ =>
        .single ⟨false, rfl⟩
    Reaches (barrierStep c) anything _ (parallel g' (.loop 0) (.loop 0) c.amount) :=
      reaches_release _ fun _ _ => rfl
    Reaches (barrierStep c) anything _ (parallel g' (.loop c.blocks) (.loop 0) c.amount) :=
      reaches_parallel _ hloop fun _ _ => .refl

/-! ## Threads in step -/

/-- Between line 106 and the end of a round `BLOCKS` is at most `blocks`. -/
def Halved (blocks : ℤ) (g : Globals) : BarrierPc → Prop
  | .writeBlocks half => half ≤ blocks
  | .reset _ | .loop _ | .merge _ | .barrier .halved _ | .barrier .merged _ => g.BLOCKS ≤ blocks
  | _ => True

def BarrierPc.counter : BarrierPc → ℤ
  | .reset i | .loop i | .merge i => i
  | _ => 0

/-- What bounds the index of an access. -/
structure RoundBounds (c : Setup) (s : BarrierState) : Prop where
  inStep : ∃ seg, InStep s seg
  blocks : s.globals.BLOCKS ≤ 2 * c.blocks
  halved : ∀ pc, s.pcs[0]? = some pc → Halved c.blocks s.globals pc
  counters : ∀ pc ∈ s.pcs, 0 ≤ pc.counter

theorem counter_step {c : Setup} {no : ℕ} {claimed : Bool} {g g' : Globals}
    {pc pc' : BarrierPc} (h : 0 ≤ pc.counter)
    (hstep : barrierStepAt c no claimed g pc = some (g', pc')) : 0 ≤ pc'.counter := by
  cases pc with
  | done => cases hstep
  | barrier r called =>
      cases called <;> cases hstep
      exact Int.le_refl 0
  | reset i =>
      cases hstep
      simp only [BarrierPc.counter] at h
      split <;> simp only [BarrierPc.counter] <;> omega
  | loop i =>
      cases hstep
      simp only [BarrierPc.counter] at h
      repeat' split
      all_goals simp only [BarrierPc.counter]; omega
  | merge i =>
      cases hstep
      simp only [BarrierPc.counter] at h ⊢
      omega
  | test | testFile =>
      cases hstep
      repeat' split
      all_goals exact Int.le_refl 0
  | _ =>
      cases hstep
      exact Int.le_refl 0

theorem halved_step {c : Setup} {claimed : Bool} {g g' : Globals} {pc pc' : BarrierPc}
    (hpos : 0 ≤ c.blocks) (hblocks : g.BLOCKS ≤ 2 * c.blocks) (h : Halved c.blocks g pc)
    (hstep : barrierStepAt c 0 claimed g pc = some (g', pc')) :
    g'.BLOCKS ≤ 2 * c.blocks ∧ Halved c.blocks g' pc' := by
  cases pc with
  | done => cases hstep
  | barrier r called =>
      cases called <;> cases hstep
      cases r <;> exact ⟨hblocks, h⟩
  | readBlocks =>
      cases hstep
      have hhalf : (2 * c.blocks).tdiv 2 = c.blocks := Int.mul_tdiv_cancel_left _ (by decide)
      exact ⟨hblocks, hhalf ▸ Int.tdiv_le_tdiv (by decide) hblocks⟩
  | writeBlocks half =>
      cases hstep
      simp only [Halved] at h ⊢
      exact ⟨by omega, h⟩
  | restoreBlocks =>
      cases hstep
      exact ⟨Int.le_refl _, trivial⟩
  | readCur fileSize | test | reset i | loop i | testFile curSize =>
      cases hstep
      refine ⟨hblocks, ?_⟩
      repeat' split
      all_goals trivial
  | _ =>
      cases hstep
      exact ⟨hblocks, h⟩

/-- Only the main thread writes `BLOCKS`. -/
theorem blocks_of_worker {c : Setup} {no : ℕ} {claimed : Bool} {g g' : Globals} {seg : Segment}
    {pc pc' : BarrierPc} (hno : no ≠ 0) (h : InSegment g no seg pc)
    (hstep : barrierStepAt c no claimed g pc = some (g', pc')) : g'.BLOCKS = g.BLOCKS := by
  cases pc with
  | done => cases hstep
  | barrier r called => cases called <;> cases hstep; rfl
  | writeBlocks half => cases seg <;> simp only [InSegment] at h; exact absurd h hno
  | restoreBlocks => cases seg <;> simp only [InSegment] at h; exact absurd h.1 hno
  | _ => cases hstep; rfl

theorem RoundBounds.init (c : Setup) : RoundBounds c (barrierInit c) where
  inStep := inStep_of_reaches .refl
  blocks := Int.le_refl _
  halved pc hpc := by
    obtain rfl := List.eq_of_mem_replicate (List.mem_of_getElem? hpc)
    trivial
  counters pc hpc := by
    obtain rfl := List.eq_of_mem_replicate hpc
    exact Int.le_refl 0

theorem RoundBounds.run {c : Setup} {no : ℕ} {claimed : Bool} {s : BarrierState}
    {g' : Globals} {pc pc' : BarrierPc} (h : RoundBounds c s) (hpos : 0 ≤ c.blocks)
    (hpc : s.pcs[no]? = some pc) (hlate : pc = .restoreBlocks → .test ∉ s.pcs)
    (hstep : barrierStepAt c no claimed s.globals pc = some (g', pc')) :
    RoundBounds c ⟨g', s.pcs.set no pc'⟩ := by
  obtain ⟨seg, hseg⟩ := h.inStep
  have hcounters := forall_mem_set (i := no) h.counters
    (counter_step (h.counters pc (List.mem_of_getElem? hpc)) hstep)
  by_cases hno : no = 0
  · subst hno
    obtain ⟨hblocks, hhalved⟩ := halved_step hpos h.blocks (h.halved pc hpc) hstep
    refine ⟨hseg.run hpc hlate hstep, hblocks, fun pc₀ hpc₀ => ?_, hcounters⟩
    rcases getElem?_set_cases hpc₀ with ⟨_, rfl⟩ | ⟨hne, _⟩
    · exact hhalved
    · exact absurd rfl hne
  · have hsame := blocks_of_worker hno (hseg.pcs no pc hpc) hstep
    refine ⟨hseg.run hpc hlate hstep, hsame.trans_le h.blocks, fun pc₀ hpc₀ => ?_, hcounters⟩
    rcases getElem?_set_cases hpc₀ with ⟨heq, _⟩ | ⟨_, hold⟩
    · exact absurd heq.symm hno
    · have hmain := h.halved pc₀ hold
      unfold Halved at hmain ⊢
      rw [hsame]
      exact hmain

theorem RoundBounds.release {c : Setup} {s : BarrierState} (h : RoundBounds c s)
    (hwait : ∀ pc ∈ s.pcs, pc.waits = true) :
    RoundBounds c { s with pcs := s.pcs.mapIdx BarrierPc.released } := by
  obtain ⟨seg, hseg⟩ := h.inStep
  have hget : ∀ (no : ℕ) (pc : BarrierPc), (s.pcs.mapIdx BarrierPc.released)[no]? = some pc →
      ∃ r, s.pcs[no]? = some (.barrier r true) ∧ pc = afterBarrier no r := by
    intro no pc hpc
    obtain ⟨pc', hpc', rfl⟩ := getElem?_released hpc
    obtain ⟨r, rfl⟩ := waits_iff.mp (hwait pc' (List.mem_of_getElem? hpc'))
    exact ⟨r, hpc', rfl⟩
  refine ⟨⟨_, hseg.release hwait⟩, h.blocks, fun pc hpc => ?_, fun pc hpc => ?_⟩
  · obtain ⟨r, hold, rfl⟩ := hget 0 pc hpc
    have hmain := h.halved _ hold
    cases r with
    | halved => exact hmain
    | _ => trivial
  · obtain ⟨no, hno⟩ := List.mem_iff_getElem?.mp hpc
    obtain ⟨r, _, rfl⟩ := hget no pc hno
    cases r with
    | entered | next =>
        simp only [afterBarrier]
        split <;> exact Int.le_refl 0
    | _ => exact Int.le_refl 0

theorem roundBounds_of_reaches {c : Setup} {s : BarrierState} (hpos : 0 ≤ c.blocks)
    (h : Reaches (barrierStep c) RestoresLate (barrierInit c) s) : RoundBounds c s := by
  refine h.invariant (RoundBounds.init c) ?_
  intro u a v hu hlate hstep
  rcases barrierStep_cases hstep with ⟨no, claimed, pc, g, pc', ha, hpc, hat, rfl⟩ | ⟨hwait, rfl⟩
  · exact hu.run hpos hpc (fun hpc' => hlate no claimed ha (hpc' ▸ hpc)) hat
  · exact hu.release hwait

/-- The only access behind the table is the last one of a thread in the first round. -/
theorem RoundBounds.mapIndex {c : Setup} {no : ℕ} {i : ℤ} {s : BarrierState} {pc : BarrierPc}
    (h : RoundBounds c s) (hpc : s.pcs[no]? = some pc)
    (hi : pc.mapIndex s.globals = some i) :
    0 ≤ i ∧ (i < c.blocks ∨ i = c.blocks ∧ s.globals.BLOCKS = c.blocks ∧ pc = .loop i) := by
  obtain ⟨seg, hseg⟩ := h.inStep
  have hcounter := h.counters pc (List.mem_of_getElem? hpc)
  have hat := hseg.pcs no pc hpc
  cases pc with
  | reset j =>
      obtain ⟨hlt, hj⟩ := Option.ite_none_right_eq_some.mp hi
      obtain rfl := Option.some.inj hj
      cases seg <;> simp only [InSegment] at hat
      subst hat
      have hle : s.globals.BLOCKS ≤ c.blocks := h.halved _ hpc
      exact ⟨hcounter, .inl (by omega)⟩
  | loop j =>
      obtain ⟨hlt, hj⟩ := Option.ite_none_right_eq_some.mp hi
      obtain rfl := Option.some.inj hj
      cases seg <;> simp only [InSegment] at hat
      have hmain := List.getElem?_eq_getElem hseg.main
      have hle : s.globals.BLOCKS ≤ c.blocks := by
        have hhalved := h.halved _ hmain
        have hmerge := hseg.pcs 0 _ hmain
        cases hpc₀ : s.pcs.get ⟨0, hseg.main⟩ with
        | barrier r called => cases r <;> simp_all [InSegment, Halved]
        | _ => simp_all [InSegment, Halved]
      refine ⟨hcounter, ?_⟩
      rcases Int.lt_or_eq_of_le (hlt.trans hle) with hlt' | heq
      · exact .inl hlt'
      · exact .inr ⟨heq, by omega, rfl⟩
  | _ => cases hi

/-! ## All accesses -/

/-- Some thread gets behind the table in every program run that sorts anything: the accesses
are in bounds only if the file has no record. Threads in step get no further than one entry,
and that in the first round of a window. -/
theorem map_in_bounds_iff {pageSize argc records : ℤ} {a a' : Arguments}
    (haccepted : checkArgs pageSize argc a = .ok a') :
    (MapInBounds (a.setup records) ↔ records ≤ 0) ∧
    ∀ s, Reaches (barrierStep (a.setup records)) RestoresLate (barrierInit (a.setup records)) s →
      ∀ (no : ℕ) (i : ℤ) (pc : BarrierPc), s.pcs[no]? = some pc →
        pc.mapIndex s.globals = some i →
          0 ≤ i ∧ (i < a.blocks ∨ i = a.blocks ∧ s.globals.BLOCKS = a.blocks ∧ pc = .loop i) := by
  obtain ⟨n, hn, hblocks, hamount⟩ := (checkArgs_ok haccepted).2.even
  refine ⟨⟨fun hbounds => ?_, fun hrecords => ⟨?_, ?_⟩⟩, fun s hrun no i pc hpc hi => ?_⟩
  · by_contra hmore
    obtain ⟨s, hrun, hB, hpc⟩ :=
      reaches_loop_blocks (c := a.setup records) (Int.not_le.mp hmore) hblocks hn
    have hi : (BarrierPc.loop (a.setup records).blocks).mapIndex s.globals =
        some (a.setup records).blocks := by
      rw [BarrierPc.mapIndex, hB, if_pos (Int.le_refl _)]
    exact absurd (hbounds.mergePhase s hrun 0 _ _ hpc hi).2 (Int.lt_irrefl _)
  · intro s hrun no i pc hpc hi
    have hlt := (sortOk_of_reaches hamount hrun).mapIndex_lt hamount hpc hi
    simp only [Arguments.setup] at hlt ⊢
    omega
  · intro s hrun no i pc hpc hi
    rw [((idle_of_reaches hrecords hrun).2 pc (List.mem_of_getElem? hpc)).mapIndex] at hi
    cases hi
  · exact (roundBounds_of_reaches (by simp only [Arguments.setup]; omega) hrun).mapIndex hpc hi

/-- 4096 records, 16 blocks and 8 threads: the main thread reads `map[16]`. -/
theorem map_out_of_bounds :
    checkArgs 4096 5 smallArguments = .ok smallArguments ∧
      ¬ MapInBounds (smallArguments.setup 4096) := by
  refine ⟨checkArgs_of_accepted (by decide) smallArguments_accepted, fun hbounds => ?_⟩
  obtain ⟨s, hrun, hB, hpc⟩ :=
    reaches_loop_blocks (c := smallArguments.setup 4096) (n := 8) (by decide) (by decide)
      (by decide)
  have hi : (BarrierPc.loop 16).mapIndex s.globals = some 16 := by
    rw [BarrierPc.mapIndex, hB]
    rfl
  exact absurd (hbounds.mergePhase s hrun 0 _ _ hpc hi).2 (by decide)

theorem map_in_bounds_iff_empty : MapInBounds (smallArguments.setup 0) := by
  have haccepted := checkArgs_of_accepted (by decide : (4 : ℤ) ≤ 5) smallArguments_accepted
  exact (map_in_bounds_iff haccepted).1.mpr (by decide)

end OsaspLabs.SortIndex
