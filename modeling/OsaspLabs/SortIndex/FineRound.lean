import Mathlib.Algebra.BigOperators.Group.Finset.Piecewise
import Mathlib.Algebra.Order.BigOperators.Group.Finset
import OsaspLabs.SortIndex.MergeCalls

/-! # The threads of a round, record by record

In every schedule the window ends as if each merge had been one step. -/

namespace OsaspLabs.SortIndex

open Runs

variable {τ : Type*} [LinearOrder τ]

/-- The blocks that are claimed and not yet merged are with one thread each; `w₀` is the window
before the round. -/
structure FineOk (memsize C : ℕ) (w₀ : Window τ) (s : FineState τ) : Prop where
  round : RoundOk (2 * C) s.round
  size : s.window.length = memsize
  calls : ∀ t pc, s.calls t = some pc → ∃ i p, s.round.pcs[t]? = some (.merge i (2 * p : ℕ)) ∧
    p < C ∧ pc.Ok (memsize / (2 * C)) p (slice (2 * (memsize / (2 * C))) p w₀)
      (slice (2 * (memsize / (2 * C))) p s.window)
  merged : ∀ p < C, s.round.merged (2 * p) ≠ 0 →
    slice (2 * (memsize / (2 * C))) p s.window =
      mergeHalves (memsize / (2 * C)) (slice (2 * (memsize / (2 * C))) p w₀)
  waiting : ∀ p < C, s.round.merged (2 * p) = 0 →
    (∀ t i, s.round.pcs[t]? = some (.merge i (2 * p : ℕ)) → s.calls t = none) →
    slice (2 * (memsize / (2 * C))) p s.window = slice (2 * (memsize / (2 * C))) p w₀

/-- The block of a thread in `merge` is not merged, and no other thread has it. -/
theorem RoundOk.holds_alone {B t i b : ℕ} {s : RoundState} (h : RoundOk B s)
    (ht : s.pcs[t]? = some (.merge i b)) :
    s.merged b = 0 ∧ ∀ u j, s.pcs[u]? = some (.merge j b) → u = t := by
  obtain ⟨heven, hpassed, hib, hlt⟩ := h.pcs t _ ht
  have hbi : b = i := by exact_mod_cast hib
  have honce := h.once b (hbi ▸ hlt)
  have hone : ∀ j, (RoundPc.merge j b).holds b = 1 := fun j => if_pos rfl
  have hle := le_tally (RoundPc.holds b) ht
  have hbusy : (decide (Busy s.map b)).toNat ≤ 1 := Bool.toNat_le _
  rw [hone] at hle
  refine ⟨by omega, fun u j hu => ?_⟩
  by_contra hne
  have htwo := add_le_tally (RoundPc.holds b) hne hu ht
  rw [hone, hone] at htwo
  omega

theorem RoundOk.merge_even {B t i : ℕ} {sav : ℤ} {s : RoundState} (h : RoundOk B s)
    (ht : s.pcs[t]? = some (.merge i sav)) : ∃ p, 2 * p < B ∧ i = 2 * p ∧ sav = (2 * p : ℕ) := by
  obtain ⟨heven, _, rfl, hlt⟩ := h.pcs t _ ht
  exact ⟨i / 2, by omega, by omega, by omega⟩

theorem FineOk.init {memsize C threads : ℕ} {map : List BlocksMap} {w : Window τ}
    (hthreads : 0 < threads) (hmap : TableReady (2 * C) map) (hw : w.length = memsize) :
    FineOk memsize C w (fineInit threads (resetMap (2 * C) map) w) where
  round := RoundOk.init hthreads hmap
  size := hw
  calls _ _ h := by cases h
  merged p _ h := absurd rfl h
  waiting _ _ _ _ := rfl

theorem FineOk.fits {memsize C p : ℕ} {w₀ : Window τ} {s : FineState τ} (hdvd : 2 * C ∣ memsize)
    (h : FineOk memsize C w₀ s) (hp : p < C) :
    (slice (2 * (memsize / (2 * C))) p s.window).length = 2 * (memsize / (2 * C)) :=
  length_slice ((pair_end_le hdvd hp).trans h.size.ge)

/-- A thread enters `merge`. -/
theorem FineOk.enter {memsize C t i : ℕ} {sav : ℤ} {w₀ : Window τ} {s s' : FineState τ}
    (h : FineOk memsize C w₀ s) (ht : s.round.pcs[t]? = some (.merge i sav))
    (hcall : s.calls t = none) (hround : s'.round = s.round)
    (hcalls : s'.calls = Function.update s.calls t (some (.copyFirst [])))
    (hwindow : s'.window = s.window) : FineOk memsize C w₀ s' := by
  obtain ⟨p, hlt, rfl, rfl⟩ := h.round.merge_even ht
  obtain ⟨hnot, halone⟩ := h.round.holds_alone ht
  have hstart := h.waiting p (by omega) hnot fun u j hu => halone u j hu ▸ hcall
  constructor
  · exact hround ▸ h.round
  · exact hwindow ▸ h.size
  · intro u pc hu
    rw [hround, hwindow]
    rw [hcalls] at hu
    by_cases htu : u = t
    · subst htu
      rw [Function.update_self] at hu
      obtain rfl := Option.some.inj hu
      exact ⟨2 * p, p, ht, by omega, hstart, Nat.zero_le _, rfl⟩
    · rw [Function.update_of_ne htu] at hu
      exact h.calls u pc hu
  · rw [hround, hwindow]
    exact h.merged
  · rw [hround, hwindow, hcalls]
    intro q hq hzero hnone
    apply h.waiting q hq hzero
    intro u j hu
    by_cases htu : u = t
    · exact htu ▸ hcall
    · have hother := hnone u j hu
      rwa [Function.update_of_ne htu] at hother

/-- A thread takes a turn inside `merge`. -/
theorem FineOk.turn {memsize C t i : ℕ} {sav : ℤ} {w₀ : Window τ} {s s' : FineState τ}
    {pc pc' : MergePc τ} (hdvd : 2 * C ∣ memsize) (hw₀ : w₀.length = memsize)
    (h : FineOk memsize C w₀ s) (ht : s.round.pcs[t]? = some (.merge i sav))
    (hcall : s.calls t = some pc)
    (hnext : mergeCallStep (memsize / (2 * C)) sav.toNat s.window pc = some (pc', s'.window))
    (hround : s'.round = s.round)
    (hcalls : s'.calls = Function.update s.calls t (some pc')) : FineOk memsize C w₀ s' := by
  obtain ⟨j, p, hp, hlt, hok⟩ := h.calls t pc hcall
  have hsame : RoundPc.merge i sav = .merge j (2 * p : ℕ) := Option.some.inj (ht.symm.trans hp)
  obtain ⟨-, rfl⟩ := RoundPc.merge.inj hsame
  obtain ⟨hnot, halone⟩ := h.round.holds_alone hp
  have hturn := mergeCallStep_turn (length_slice ((pair_end_le hdvd hlt).trans hw₀.ge))
    (h.fits hdvd hlt) hok hnext
  constructor
  · exact hround ▸ h.round
  · exact hturn.length.trans h.size
  · intro u pcu hu
    rw [hcalls] at hu
    rw [hround]
    by_cases htu : u = t
    · subst htu
      rw [Function.update_self] at hu
      obtain rfl := Option.some.inj hu
      exact ⟨j, p, hp, hlt, hturn.ok⟩
    · rw [Function.update_of_ne htu] at hu
      obtain ⟨k, q, hq, hqC, hokq⟩ := h.calls u pcu hu
      have hne : q ≠ p := by
        rintro rfl
        exact htu (halone u k hq)
      exact ⟨k, q, hq, hqC, (hturn.frame q hne).symm ▸ hokq⟩
  · intro q hq hmerged
    rw [hround] at hmerged
    have hne : q ≠ p := by
      rintro rfl
      exact hmerged hnot
    rw [hturn.frame q hne]
    exact h.merged q hq hmerged
  · intro q hq hzero hnone
    rw [hround] at hzero hnone
    have hne : q ≠ p := by
      rintro rfl
      have hin := hnone t j hp
      rw [hcalls, Function.update_self] at hin
      cases hin
    rw [hturn.frame q hne]
    apply h.waiting q hq hzero
    intro u k hu
    have htu : u ≠ t := by
      rintro rfl
      obtain ⟨-, hpq⟩ := RoundPc.merge.inj (Option.some.inj (hp.symm.trans hu))
      omega
    have hother := hnone u k hu
    rwa [hcalls, Function.update_of_ne htu] at hother

/-- A step of the loop around `merge` moves one thread closer to its end, and logs the block if
the thread comes from `merge`. -/
theorem RoundOk.moves {B t : ℕ} {s s' : RoundState} (h : RoundOk B s)
    (hstep : roundStep B s t = some s') :
    ∃ pc pc', s.pcs[t]? = some pc ∧ s'.pcs = s.pcs.set t pc' ∧ pc'.left B < pc.left B ∧
      ((∃ i sav, pc = .merge i sav ∧ s'.merges = s.merges ++ [(t, sav.toNat)]) ∨
        (∀ i sav, pc ≠ .merge i sav) ∧ s'.merges = s.merges) := by
  unfold roundStep at hstep
  split at hstep
  · cases hstep
  · rename_i pc hpc
    have hok := h.pcs t pc hpc
    refine ⟨pc, ?_⟩
    cases pc with
    | head i =>
        obtain rfl := Option.some.inj hstep
        have hi := hok.2.2
        refine ⟨_, hpc, rfl, ?_, .inr ⟨by simp, rfl⟩⟩
        split <;> simp only [RoundPc.left] <;> omega
    | lock i =>
        simp only [roundStepAt] at hstep
        split at hstep
        · cases hstep
        · obtain rfl := Option.some.inj hstep
          have hi := hok.2.2
          exact ⟨_, hpc, rfl, by simp only [RoundPc.left]; omega, .inr ⟨by simp, rfl⟩⟩
    | read i =>
        simp only [roundStepAt] at hstep
        split at hstep
        · cases hstep
        · obtain rfl := Option.some.inj hstep
          have hi := hok.2.2
          refine ⟨_, hpc, rfl, ?_, .inr ⟨by simp, rfl⟩⟩
          split <;> simp only [RoundPc.left] <;> omega
    | write i =>
        obtain rfl := Option.some.inj hstep
        have hi := hok.2.2.1
        exact ⟨_, hpc, rfl, by simp only [RoundPc.left]; omega, .inr ⟨by simp, rfl⟩⟩
    | save i =>
        simp only [roundStepAt] at hstep
        split at hstep
        · cases hstep
        · obtain rfl := Option.some.inj hstep
          have hi := hok.2.2
          exact ⟨_, hpc, rfl, by simp only [RoundPc.left]; omega, .inr ⟨by simp, rfl⟩⟩
    | unlock i sav =>
        obtain rfl := Option.some.inj hstep
        have hi := hok.2.2.1
        refine ⟨_, hpc, rfl, ?_, .inr ⟨by simp, rfl⟩⟩
        split <;> simp only [RoundPc.left] <;> omega
    | merge i sav =>
        obtain rfl := Option.some.inj hstep
        have hi := hok.2.2.2
        exact ⟨_, hpc, rfl, by simp only [RoundPc.left]; omega, .inl ⟨i, sav, rfl, rfl⟩⟩
    | done => cases hstep

theorem merged_append {s s' : RoundState} {t b : ℕ} (h : s'.merges = s.merges ++ [(t, b)])
    (c : ℕ) : s'.merged c = s.merged c + [b].count c := by
  rw [RoundState.merged, h, List.map_append, List.count_append]
  rfl

/-- A thread steps in the loop around `merge`, or returns from it. -/
theorem FineOk.move {memsize C t : ℕ} {w₀ : Window τ} {s s' : FineState τ}
    (h : FineOk memsize C w₀ s) (hstep : roundStep (2 * C) s.round t = some s'.round)
    (hcall : ∀ i sav, s.round.pcs[t]? = some (.merge i sav) → s.calls t = some .finished)
    (hcalls : s'.calls = Function.update s.calls t none) (hwindow : s'.window = s.window) :
    FineOk memsize C w₀ s' := by
  obtain ⟨pc, pc', ht, hpcs, -, hmerges⟩ := h.round.moves hstep
  have hother : ∀ u, u ≠ t → s'.round.pcs[u]? = s.round.pcs[u]? := fun u hu => by
    rw [hpcs, List.getElem?_set_ne (Ne.symm hu)]
  have hgrow : ∀ b, s'.round.merged b = 0 → s.round.merged b = 0 := by
    intro b hb
    rcases hmerges with ⟨i, sav, -, hm⟩ | ⟨-, hm⟩
    · rw [merged_append hm] at hb
      exact Nat.eq_zero_of_add_eq_zero_right hb
    · rwa [RoundState.merged, hm] at hb
  constructor
  · exact h.round.step hstep
  · exact hwindow ▸ h.size
  · intro u pcu hu
    rw [hcalls] at hu
    by_cases htu : u = t
    · subst htu
      rw [Function.update_self] at hu
      cases hu
    · rw [Function.update_of_ne htu] at hu
      rw [hother u htu, hwindow]
      exact h.calls u pcu hu
  · intro p hp hmerged
    rw [hwindow]
    by_cases hold : s.round.merged (2 * p) = 0
    · rcases hmerges with ⟨i, sav, rfl, hm⟩ | ⟨-, hm⟩
      · obtain ⟨j, q, hq, -, hok⟩ := h.calls t _ (hcall i sav ht)
        obtain ⟨-, rfl⟩ := RoundPc.merge.inj (Option.some.inj (ht.symm.trans hq))
        rw [merged_append hm, hold, Nat.zero_add, Int.toNat_natCast] at hmerged
        have hmem := List.mem_singleton.mp (List.count_pos_iff.mp (Nat.pos_of_ne_zero hmerged))
        obtain rfl : p = q := by omega
        exact hok
      · rw [RoundState.merged, hm] at hmerged
        exact absurd hold hmerged
    · exact h.merged p hp hold
  · intro p hp hzero hnone
    rw [hwindow]
    apply h.waiting p hp (hgrow _ hzero)
    intro u i hu
    by_cases htu : u = t
    · subst htu
      exfalso
      rcases hmerges with ⟨j, sav, rfl, hm⟩ | ⟨hno, -⟩
      · obtain ⟨-, rfl⟩ := RoundPc.merge.inj (Option.some.inj (ht.symm.trans hu))
        rw [merged_append hm, Int.toNat_natCast, List.count_singleton_self] at hzero
        omega
      · exact hno i _ (Option.some.inj (ht.symm.trans hu))
    · have hsame := hnone u i ((hother u htu).trans hu)
      rwa [hcalls, Function.update_of_ne htu] at hsame

theorem FineOk.step {memsize C t : ℕ} {w₀ : Window τ} {s s' : FineState τ}
    (hdvd : 2 * C ∣ memsize) (hw₀ : w₀.length = memsize) (h : FineOk memsize C w₀ s)
    (hstep : fineStep memsize (2 * C) s t = some s') : FineOk memsize C w₀ s' := by
  cases fineStep_effect hstep with
  | enter i sav at? call round calls window => exact h.enter at? call round calls window
  | turn i sav pc pc' at? call next round calls => exact h.turn hdvd hw₀ at? call next round calls
  | move step call calls window => exact h.move step call calls window

theorem fineOk_of_reaches {memsize C threads : ℕ} {map : List BlocksMap} {w : Window τ}
    {s : FineState τ} (hthreads : 0 < threads) (hmap : TableReady (2 * C) map)
    (hdvd : 2 * C ∣ memsize) (hw : w.length = memsize)
    (h : Reaches (fineStep memsize (2 * C)) anything
      (fineInit threads (resetMap (2 * C) map) w) s) : FineOk memsize C w s :=
  h.invariant (FineOk.init hthreads hmap hw) fun _ _ _ hu _ hstep => hu.step hdvd hw hstep

/-- A round run to its end has merged every pair of blocks. -/
theorem FineOk.window_eq {memsize C : ℕ} {w₀ : Window τ} {s : FineState τ}
    (hdvd : 2 * C ∣ memsize) (hw₀ : w₀.length = memsize) (h : FineOk memsize C w₀ s)
    (hdone : s.round.Complete) : s.window = mergePairs memsize C w₀ := by
  have hsize := pairs_length hdvd
  have hlen := length_mergeHalves (τ := τ) (memsize / (2 * C))
  have hfit := pairs_fit hdvd hw₀
  apply ext_slices (n := 2 * (memsize / (2 * C))) (B := C)
  · rw [h.size, hsize]
  · rw [length_mergePairs hdvd hw₀, hsize]
  · intro p hp
    have hin : 2 * p ∈ s.round.merges.map Prod.snd :=
      (h.round.merges_perm hdone).mem_iff.mpr (mem_evens.mpr ⟨p, by omega, rfl⟩)
    have hmerged : s.round.merged (2 * p) ≠ 0 := (List.count_pos_iff.mpr hin).ne'
    rw [h.merged p hp hmerged, mergePairs, slice_updateSlices hlen List.nodup_range hfit,
      if_pos (List.mem_range.mpr hp)]

/-! ## Every schedule ends -/

/-- An upper bound on the turns in `merge`, from before the call on. -/
def callBound (n : ℕ) : ℕ := 4 * n + 6

def callLeft (n : ℕ) : Option RoundPc → Option (MergePc τ) → ℕ
  | some (.merge _ _), none => callBound n
  | some (.merge _ _), some pc => pc.left n
  | _, _ => 0

/-- A bound on the steps that a round has left. -/
def FineState.left (n B : ℕ) (s : FineState τ) : ℕ :=
  (callBound n + 1) * s.round.left B +
    ∑ t ∈ Finset.range s.round.pcs.length, callLeft n s.round.pcs[t]? (s.calls t)

omit [LinearOrder τ] in
theorem callLeft_le (n : ℕ) (pc : Option RoundPc) :
    callLeft n pc (none : Option (MergePc τ)) ≤ callBound n := by
  rcases pc with _ | pc
  · exact Nat.zero_le _
  · cases pc <;> simp [callLeft]

omit [LinearOrder τ] in
/-- Entering a call and taking a turn inside. -/
theorem left_of_call {n B t : ℕ} {s s' : FineState τ} {pc : RoundPc} {call : Option (MergePc τ)}
    (ht : s.round.pcs[t]? = some pc) (hround : s'.round = s.round)
    (hcalls : s'.calls = Function.update s.calls t call)
    (hlt : callLeft n (some pc) call < callLeft n (some pc) (s.calls t)) :
    s'.left n B < s.left n B := by
  obtain ⟨htlt, -⟩ := List.getElem?_eq_some_iff.mp ht
  rw [FineState.left, FineState.left, hround]
  apply Nat.add_lt_add_left
  apply Finset.sum_lt_sum
  · intro u _
    by_cases htu : u = t
    · rw [htu, hcalls, Function.update_self, ht]
      exact Nat.le_of_lt hlt
    · rw [hcalls, Function.update_of_ne htu]
  · refine ⟨t, Finset.mem_range.mpr htlt, ?_⟩
    rw [hcalls, Function.update_self, ht]
    exact hlt

omit [LinearOrder τ] in
/-- A step of the loop around `merge` pays for the call that may follow it. -/
theorem left_of_move {n B t : ℕ} {s s' : FineState τ} (h : RoundOk B s.round)
    (hstep : roundStep B s.round t = some s'.round)
    (hcalls : s'.calls = Function.update s.calls t none) : s'.left n B < s.left n B := by
  obtain ⟨pc, pc', ht, hpcs, hleft, -⟩ := h.moves hstep
  have hround : s'.round.left B < s.round.left B := by
    rw [RoundState.left, hpcs]
    exact tally_set_lt ht hleft
  have hlen : s'.round.pcs.length = s.round.pcs.length := by rw [hpcs, List.length_set]
  have hsum : ∑ u ∈ Finset.range s'.round.pcs.length, callLeft n s'.round.pcs[u]? (s'.calls u) ≤
      ∑ u ∈ Finset.range s.round.pcs.length,
        (callLeft n s.round.pcs[u]? (s.calls u) + if u = t then callBound n else 0) := by
    rw [hlen]
    apply Finset.sum_le_sum
    intro u _
    by_cases htu : u = t
    · have hbound := callLeft_le (τ := τ) n s'.round.pcs[t]?
      rw [if_pos htu, htu, hcalls, Function.update_self]
      omega
    · rw [if_neg htu, hcalls, Function.update_of_ne htu, hpcs,
        List.getElem?_set_ne (Ne.symm htu)]
      exact Nat.le_refl _
  rw [Finset.sum_add_distrib] at hsum
  have hone : ∑ u ∈ Finset.range s.round.pcs.length, (if u = t then callBound n else 0) ≤
      callBound n := by
    rw [Finset.sum_ite_eq']
    split <;> simp
  have hpay : (callBound n + 1) * s'.round.left B + (callBound n + 1) ≤
      (callBound n + 1) * s.round.left B := by
    rw [← Nat.mul_succ]
    exact Nat.mul_le_mul_left _ hround
  rw [FineState.left, FineState.left]
  omega

theorem FineOk.step_left {memsize C t : ℕ} {w₀ : Window τ} {s s' : FineState τ}
    (hdvd : 2 * C ∣ memsize) (hw₀ : w₀.length = memsize) (h : FineOk memsize C w₀ s)
    (hstep : fineStep memsize (2 * C) s t = some s') :
    s'.left (memsize / (2 * C)) (2 * C) < s.left (memsize / (2 * C)) (2 * C) := by
  cases fineStep_effect hstep with
  | enter i sav at? call round calls window =>
      apply left_of_call at? round calls
      simp only [call, callLeft, MergePc.left, callBound, List.length_nil]
      omega
  | turn i sav pc pc' at? call next round calls =>
      obtain ⟨j, p, hp, hlt, hok⟩ := h.calls t pc call
      obtain ⟨-, rfl⟩ := RoundPc.merge.inj (Option.some.inj (at?.symm.trans hp))
      have hturn := mergeCallStep_turn (length_slice ((pair_end_le hdvd hlt).trans hw₀.ge))
        (h.fits hdvd hlt) hok next
      apply left_of_call at? round calls
      simp only [call, callLeft]
      exact hturn.left
  | move step call calls window => exact left_of_move h.round step calls

/-- No schedule gets stuck before the barrier. -/
theorem FineOk.enabled {memsize C : ℕ} {w₀ : Window τ} {s : FineState τ}
    (hdvd : 2 * C ∣ memsize) (hw₀ : w₀.length = memsize) (h : FineOk memsize C w₀ s)
    (hdone : ¬ s.round.Complete) : ∃ t s', fineStep memsize (2 * C) s t = some s' := by
  obtain ⟨t, r, hr, -⟩ := h.round.progress hdone
  refine ⟨t, ?_⟩
  unfold fineStep
  split
  · rename_i i sav hpc
    split
    · exact ⟨_, rfl⟩
    · exact ⟨_, by rw [FineState.move, hr]; rfl⟩
    · rename_i pc hpcne hcall
      obtain ⟨j, p, hp, hlt, hok⟩ := h.calls t pc hcall
      obtain ⟨-, rfl⟩ := RoundPc.merge.inj (Option.some.inj (hpc.symm.trans hp))
      have hfit := pair_end_le hdvd hlt
      obtain ⟨next, hnext⟩ := mergeCallStep_enabled (length_slice (hfit.trans hw₀.ge))
        (hfit.trans h.size.ge) hok hpcne
      exact ⟨_, by rw [Int.toNat_natCast, hnext]; rfl⟩
  · exact ⟨_, by rw [FineState.move, hr]; rfl⟩

/-! ## The whole round -/

omit [LinearOrder τ] in
theorem left_init {threads n B : ℕ} {map : List BlocksMap} {w : Window τ} :
    (fineInit threads map w).left n B = (callBound n + 1) * (threads * (6 * (B + 3))) := by
  have hround : (roundInit threads map).left B = threads * (6 * (B + 3)) := by
    simp [RoundState.left, roundInit, tally, RoundPc.left]
  have hcalls : ∀ t ∈ Finset.range (fineInit threads map w).round.pcs.length,
      callLeft n (fineInit threads map w).round.pcs[t]? ((fineInit threads map w).calls t) = 0 := by
    intro t _
    simp only [fineInit, roundInit, List.getElem?_replicate]
    split <;> rfl
  rw [FineState.left, Finset.sum_eq_zero hcalls]
  exact congrArg _ hround

/-- A run of `n` steps has lowered the bound by `n`. -/
theorem FineOk.exec {memsize C : ℕ} {w₀ : Window τ} {s s' : FineState τ} {ts : List ℕ}
    (hdvd : 2 * C ∣ memsize) (hw₀ : w₀.length = memsize) (h : FineOk memsize C w₀ s)
    (hexec : exec (fineStep memsize (2 * C)) s ts = some s') :
    FineOk memsize C w₀ s' ∧ ts.length + s'.left (memsize / (2 * C)) (2 * C) ≤
      s.left (memsize / (2 * C)) (2 * C) := by
  induction ts generalizing s with
  | nil =>
      obtain rfl := Option.some.inj hexec
      exact ⟨h, by simp⟩
  | cons t ts ih =>
      obtain ⟨u, hu, hrest⟩ := Option.bind_eq_some_iff.mp hexec
      obtain ⟨hok, hle⟩ := ih (h.step hdvd hw₀ hu) hrest
      have hlt := h.step_left hdvd hw₀ hu
      refine ⟨hok, ?_⟩
      rw [List.length_cons]
      omega

/-- However the threads of a round take turns, record by record, they come to the barrier after
a bounded number of steps, and the window is what the merges leave one after the other in the
order of their returns. -/
theorem round_record_by_record {memsize C threads : ℕ} {map : List BlocksMap} {w : Window τ}
    {ts : List ℕ} {s : FineState τ} (hthreads : 0 < threads) (hmap : TableReady (2 * C) map)
    (hdvd : 2 * C ∣ memsize) (hw : w.length = memsize)
    (h : exec (fineStep memsize (2 * C)) (fineInit threads (resetMap (2 * C) map) w) ts =
      some s) :
    ts.length ≤ (4 * (memsize / (2 * C)) + 7) * (threads * (6 * (2 * C + 3))) ∧
    (¬ s.round.Complete → ∃ t s', fineStep memsize (2 * C) s t = some s') ∧
    (s.round.Complete → (s.round.merges.map Prod.snd).Perm (evens (2 * C)) ∧
      mergeAll memsize (2 * C) (s.round.merges.map Prod.snd) w = some s.window) := by
  obtain ⟨hok, hle⟩ := (FineOk.init hthreads hmap hw).exec hdvd hw h
  rw [left_init, callBound] at hle
  refine ⟨(Nat.le_add_right _ _).trans hle, hok.enabled hdvd hw, fun hdone => ?_⟩
  have hperm := hok.round.merges_perm hdone
  exact ⟨hperm, by rw [mergeAll_eq_mergePairs hdvd hw hperm, hok.window_eq hdvd hw hdone]⟩

/-- Two threads merge two pairs of blocks of one record each, taking turns. -/
theorem round_record_by_record_two :
    ∃ s, exec (fineStep 4 4)
        (fineInit 2 (resetMap 4 [⟨0, 0⟩, ⟨0, 1⟩, ⟨0, 2⟩, ⟨0, 3⟩, ⟨1, 4⟩])
          [⟨9, 0⟩, ⟨4, 1⟩, ⟨7, 2⟩, ⟨(8 : ℕ), 3⟩])
        ([0, 1, 0, 0, 0, 0, 0] ++ (List.replicate 20 [1, 0]).flatten ++ [1, 1, 1, 1, 1]) =
          some s ∧
      mergeAll 4 4 (s.round.merges.map Prod.snd) [⟨9, 0⟩, ⟨4, 1⟩, ⟨7, 2⟩, ⟨(8 : ℕ), 3⟩] =
        some s.window := by
  have hready : TableReady (2 * 2) [⟨0, 0⟩, ⟨0, 1⟩, ⟨0, 2⟩, ⟨0, 3⟩, ⟨1, 4⟩] := {
    size := by decide
    entries := by decide
    top := ⟨_, rfl, rfl⟩ }
  have hrun : ∃ s, exec (fineStep 4 4)
      (fineInit 2 (resetMap 4 [⟨0, 0⟩, ⟨0, 1⟩, ⟨0, 2⟩, ⟨0, 3⟩, ⟨1, 4⟩])
        [⟨9, 0⟩, ⟨4, 1⟩, ⟨7, 2⟩, ⟨(8 : ℕ), 3⟩])
      ([0, 1, 0, 0, 0, 0, 0] ++ (List.replicate 20 [1, 0]).flatten ++ [1, 1, 1, 1, 1]) =
        some s ∧ s.round.Complete := ⟨_, rfl, by decide⟩
  obtain ⟨s, hexec, hdone⟩ := hrun
  have hround := round_record_by_record (C := 2) (by decide : 0 < 2) hready
    (by decide : 2 * 2 ∣ 4) rfl hexec
  exact ⟨s, hexec, (hround.2.2 hdone).2⟩

end OsaspLabs.SortIndex
