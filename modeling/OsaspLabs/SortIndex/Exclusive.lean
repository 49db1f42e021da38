import OsaspLabs.SortIndex.SortPhase

/-! # Who sorts which block

`createThreads` reserves the blocks `0, …, amount - 1`, but the threads that sort a block
of their own are numbered `0, …, amount`. -/

namespace OsaspLabs.SortIndex

open Runs

/-- No block has been handed to `qsort` by two threads. -/
def Exclusive (s : SortState) : Prop :=
  ∀ t u b, (t, b) ∈ s.qsorts → (u, b) ∈ s.qsorts → t = u

/-- Only thread `amount` itself may claim block `amount`, which no initialisation reserves
for it. -/
def NoForeignClaim (amount : ℕ) (s : SortState) (t : ℕ) : Prop :=
  s.pcs[t]? = some (.claim amount) → t = amount

/-- Block `amount` has been claimed by nobody but thread `amount`. -/
def OwnClaims (amount : ℕ) (s : SortState) : Prop := ∀ t, (t, amount) ∈ s.claims → t = amount

theorem SortOk.exclusive_of_ownClaims {amount blocks : ℕ} {s : SortState}
    (h : SortOk amount blocks s) (hown : OwnClaims amount s) : Exclusive s := by
  -- a block sorted as the own block of one thread and claimed by another is block `amount`
  have hmixed : ∀ t u, t ≤ amount → (u, t) ∈ s.claims → u = t := by
    intro t u ht hclaim
    obtain rfl : t = amount := Nat.le_antisymm ht (h.claims_ge u t hclaim).1
    exact hown u hclaim
  intro t u b ht hu
  obtain ⟨hta, hbt | hct⟩ := h.qsorts t b ht <;> obtain ⟨hua, hbu | hcu⟩ := h.qsorts u b hu
  · exact hbt.symm.trans hbu
  · subst hbt
    exact (hmixed b u hta hcu).symm
  · subst hbu
    exact hmixed b t hua hct
  · rcases Nat.lt_or_eq_of_le (h.claims_ge t b hct).1 with hlt | rfl
    · exact h.unique t u b hlt hct hcu
    · exact (hown t hct).trans (hown u hcu).symm

theorem ownClaims_step {amount blocks t : ℕ} {s s' : SortState} (hok : NoForeignClaim amount s t)
    (hown : OwnClaims amount s) (hstep : sortStep blocks s t = some s') :
    OwnClaims amount s' := by
  unfold sortStep at hstep
  split at hstep
  · cases hstep
  · rename_i pc hpc
    cases pc <;> simp only [sortStepAt] at hstep
    case claim i =>
      obtain rfl := Option.some.inj hstep
      intro u hu
      rcases List.mem_append.mp hu with hu | hu
      · exact hown u hu
      · obtain ⟨rfl, rfl⟩ := Prod.mk.inj (List.mem_singleton.mp hu)
        exact hok hpc
    case done => cases hstep
    case scan i =>
      split at hstep
      · split at hstep
        · cases hstep
        · obtain rfl := Option.some.inj hstep
          exact hown
      · obtain rfl := Option.some.inj hstep
        exact hown
    case lock i | retest i =>
      split at hstep
      · cases hstep
      · obtain rfl := Option.some.inj hstep
        exact hown
    all_goals
      obtain rfl := Option.some.inj hstep
      exact hown

/-- A run in which no other thread claims block `amount` sorts every block in one thread
only; a run to the end sorts exclusively just in that case. -/
theorem sortPhase_exclusive_iff {amount blocks : ℕ} (hamount : amount < blocks)
    (s : SortState) :
    (Reaches (sortStep blocks) (NoForeignClaim amount) (sortInit amount blocks) s →
      Exclusive s) ∧
    (Reaches (sortStep blocks) anything (sortInit amount blocks) s → s.Complete →
      (Exclusive s ↔ OwnClaims amount s)) := by
  constructor
  · intro h
    have hown : OwnClaims amount s :=
      h.invariant (I := OwnClaims amount) nofun fun _ _ _ hu hok hstep =>
        ownClaims_step hok hu hstep
    exact (sortOk_of_reaches hamount h).exclusive_of_ownClaims hown
  · intro h hdone
    have hok := sortOk_of_reaches hamount h
    refine ⟨fun hex t hclaim => ?_, hok.exclusive_of_ownClaims⟩
    have hself := (hok.pcs amount _ (hok.done hdone (Nat.le_refl amount))).1
    exact hex t amount amount (hok.sorted_of_complete hdone hclaim) hself

/-- With 8 threads and 16 blocks, thread 0 goes through the whole loop before thread 8
starts. -/
def lateOwner : List ℕ := List.replicate 18 0 ++ [8, 8]

theorem sortPhase_not_exclusive :
    ∃ s, Reaches (sortStep 16) anything (sortInit 8 16) s ∧ ¬ Exclusive s := by
  have hrun : ∃ s, exec (sortStep 16) (sortInit 8 16) lateOwner = some s ∧
      s.qsorts = [(0, 0), (0, 8), (8, 8)] := ⟨_, rfl, rfl⟩
  obtain ⟨s, hexec, hlog⟩ := hrun
  refine ⟨s, reaches_anything_of_exec hexec, fun hex => ?_⟩
  exact absurd (hex 0 8 8 (by simp [hlog]) (by simp [hlog])) (by decide)

theorem sortPhase_exclusive_iff_complete :
    (∃ s, exec (sortStep 16) (sortInit 8 16) [8, 8] = some s ∧ Exclusive s) ∧
    ∃ s, Reaches (sortStep 16) anything (sortInit 8 16) s ∧ s.Complete ∧
      (Exclusive s ↔ OwnClaims 8 s) := by
  have hlt : 8 < 16 := by decide
  constructor
  · have hrun : ∃ s, exec (sortStep 16) (sortInit 8 16) [8, 8] = some s := ⟨_, rfl⟩
    obtain ⟨s, hs⟩ := hrun
    have hown : ∀ t ∈ [8, 8], ∀ u, NoForeignClaim 8 u t := by
      intro t ht u _
      simpa using ht
    exact ⟨s, hs, (sortPhase_exclusive_iff hlt s).1 (reaches_of_exec hown hs)⟩
  · obtain ⟨s, hrun, hdone⟩ := sortPhase_completes hlt
    exact ⟨s, hrun, hdone, (sortPhase_exclusive_iff hlt s).2 hrun hdone⟩

end OsaspLabs.SortIndex
