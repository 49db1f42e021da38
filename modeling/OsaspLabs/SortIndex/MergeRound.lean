import OsaspLabs.Library.Lock
import OsaspLabs.Library.Runs
import OsaspLabs.Library.Tally
import OsaspLabs.SortIndex.Window
import OsaspLabs.SortIndex.BlocksMap

/-! # One round of `mergePhase` of LAB_6

Between two barriers `BLOCKS` keeps its value `B` and all threads go through the same loop.
The loop also tests `map[B]`, which is busy: it was claimed in the round before, and in the
first round it is the memory behind the table. -/

namespace OsaspLabs.SortIndex

open Runs

/-- Where a thread is between the barriers; `i` is its loop counter. -/
inductive RoundPc where
  /-- The test of the loop. -/
  | head (i : ℕ)
  | lock (i : ℕ)
  | read (i : ℕ)
  /-- `map[i].isBusy = 1` -/
  | write (i : ℕ)
  /-- `sav = map[i].block` -/
  | save (i : ℕ)
  | unlock (i : ℕ) (sav : ℤ)
  | merge (i : ℕ) (sav : ℤ)
  | done
  deriving DecidableEq

structure RoundState where
  map : List BlocksMap
  mutex : Option ℕ
  pcs : List RoundPc
  /-- Every block number handed to `merge` so far, with its thread. -/
  merges : List (ℕ × ℕ)

def roundInit (threads : ℕ) (map : List BlocksMap) : RoundState :=
  ⟨map, none, List.replicate threads (.head 0), []⟩

def RoundState.goto (s : RoundState) (t : ℕ) (pc : RoundPc) : RoundState :=
  { s with pcs := s.pcs.set t pc }

/-- One step of thread `t` at `pc`. The call of `merge` is one step. -/
def roundStepAt (B : ℕ) (s : RoundState) (t : ℕ) : RoundPc → Option RoundState
  | .head i => some (s.goto t (if i ≤ B then .lock i else .done))
  | .lock i =>
      match Lock.mutex.acquire s.mutex t with
      | none => none
      | some m => some { s.goto t (.read i) with mutex := m }
  | .read i =>
      match s.map[i]? with
      | none => none
      | some e => some (s.goto t (if e.isBusy ≠ 1 then .write i else .unlock i (-1)))
  | .write i => some { s.goto t (.save i) with map := setBusy s.map i }
  | .save i =>
      match s.map[i]? with
      | none => none
      | some e => some (s.goto t (.unlock i e.block))
  | .unlock i sav =>
      some
        { s.goto t (if sav ≠ -1 then .merge i sav else .head (i + 2)) with
          mutex := Lock.mutex.release s.mutex t }
  | .merge i sav => some { s.goto t (.head (i + 2)) with merges := s.merges ++ [(t, sav.toNat)] }
  | .done => none

def roundStep (B : ℕ) (s : RoundState) (t : ℕ) : Option RoundState :=
  match s.pcs[t]? with
  | none => none
  | some pc => roundStepAt B s t pc

/-! ## What holds of a thread at its place -/

def RoundPc.inCriticalSection : RoundPc → Bool
  | .read _ | .write _ | .save _ | .unlock _ _ => true
  | _ => false

/-- Every even block below `i` is taken. -/
def Passed (B : ℕ) (map : List BlocksMap) (i : ℕ) : Prop :=
  ∀ b < i, b < B → b % 2 = 0 → Busy map b

def RoundPcOk (B : ℕ) (map : List BlocksMap) : RoundPc → Prop
  | .head i => i % 2 = 0 ∧ Passed B map i ∧ i ≤ B + 2
  | .lock i | .read i => i % 2 = 0 ∧ Passed B map i ∧ i ≤ B
  | .write i => i % 2 = 0 ∧ Passed B map i ∧ i < B ∧ ¬ Busy map i
  | .save i => i % 2 = 0 ∧ Passed B map (i + 2) ∧ i < B
  | .unlock i sav => i % 2 = 0 ∧ Passed B map (i + 2) ∧ i ≤ B ∧ (sav = -1 ∨ sav = i ∧ i < B)
  | .merge i sav => i % 2 = 0 ∧ Passed B map (i + 2) ∧ sav = i ∧ i < B
  | .done => Passed B map B

/-- The block that a thread has claimed and not yet merged. -/
def RoundPc.holds (b : ℕ) : RoundPc → ℕ
  | .save i => if i = b then 1 else 0
  | .unlock _ sav | .merge _ sav => if sav = b then 1 else 0
  | _ => 0

/-- How often block number `b` has been merged. -/
def RoundState.merged (s : RoundState) (b : ℕ) : ℕ := (s.merges.map Prod.snd).count b

structure RoundOk (B : ℕ) (s : RoundState) : Prop where
  threads : 0 < s.pcs.length
  size : B < s.map.length
  mutex : Lock.OwnedBy s.mutex (s.pcs.map RoundPc.inCriticalSection)
  pcs : ∀ (t : ℕ) (pc : RoundPc), s.pcs[t]? = some pc → RoundPcOk B s.map pc
  entries : ∀ i < B, ∀ e, s.map[i]? = some e → e.block = i
  top : Busy s.map B
  even : ∀ b < B, Busy s.map b → b % 2 = 0
  once : ∀ b < B, s.merged b + tally (RoundPc.holds b) s.pcs = (decide (Busy s.map b)).toNat
  merges : ∀ p ∈ s.merges, p.2 < B

theorem Passed.mono {B i : ℕ} {map map' : List BlocksMap} (h : Passed B map i)
    (hmap : ∀ b, Busy map b → Busy map' b) : Passed B map' i :=
  fun b hbi hbB heven => hmap b (h b hbi hbB heven)

theorem Passed.succ {B i : ℕ} {map : List BlocksMap} (h : Passed B map i) (heven : i % 2 = 0)
    (hi : Busy map i) : Passed B map (i + 2) := by
  intro b hbi hbB hbeven
  rcases Nat.lt_or_ge b i with hlt | hge
  · exact h b hlt hbB hbeven
  · obtain rfl : b = i := by omega
    exact hi

theorem RoundPcOk.mono {B : ℕ} {map map' : List BlocksMap} {pc : RoundPc}
    (h : RoundPcOk B map pc) (hmap : ∀ b, Busy map b → Busy map' b)
    (hwrite : ∀ i, pc = .write i → Busy map' i → Busy map i) : RoundPcOk B map' pc := by
  cases pc with
  | head i | lock i | read i | save i => exact ⟨h.1, h.2.1.mono hmap, h.2.2⟩
  | write i =>
      exact ⟨h.1, h.2.1.mono hmap, h.2.2.1, fun hbusy => h.2.2.2 (hwrite i rfl hbusy)⟩
  | unlock i sav | merge i sav => exact ⟨h.1, h.2.1.mono hmap, h.2.2⟩
  | done => exact Passed.mono h hmap

/-! ## Each step keeps the invariant -/

/-- No other thread is about to write while one is in the critical section. -/
theorem RoundOk.exclusive {B t u : ℕ} {s : RoundState} {pc pc' : RoundPc} (h : RoundOk B s)
    (ht : s.pcs[t]? = some pc) (hu : s.pcs[u]? = some pc')
    (hpc : pc.inCriticalSection = true) (hpc' : pc'.inCriticalSection = true) : t = u := by
  have hmt := (h.mutex t).mpr (by simp [ht, hpc])
  have hmu := (h.mutex u).mpr (by simp [hu, hpc'])
  exact Option.some.inj (hmt.symm.trans hmu)

/-- A step that leaves the table as it is. -/
theorem RoundOk.advance {B t : ℕ} {s s' : RoundState} {pc pc' : RoundPc} (h : RoundOk B s)
    (hpc : s.pcs[t]? = some pc) (hpcs : s'.pcs = s.pcs.set t pc') (hmap : s'.map = s.map)
    (hand : Lock.Handover t s.mutex pc.inCriticalSection s'.mutex pc'.inCriticalSection)
    (hnew : RoundPcOk B s.map pc')
    (honce : ∀ b < B, s'.merged b + pc'.holds b = s.merged b + pc.holds b)
    (hmerges : ∀ p ∈ s'.merges, p ∈ s.merges ∨ p.2 < B) : RoundOk B s' := by
  constructor
  · rw [hpcs, List.length_set]
    exact h.threads
  · exact hmap ▸ h.size
  · rw [hpcs, List.map_set]
    exact h.mutex.handover (by simp [hpc]) hand
  · intro u pcu hu
    rw [hpcs] at hu
    rw [hmap]
    rcases getElem?_set_cases hu with ⟨_, rfl⟩ | ⟨_, hold⟩
    · exact hnew
    · exact h.pcs u pcu hold
  · rw [hmap]
    exact h.entries
  · exact hmap ▸ h.top
  · rw [hmap]
    exact h.even
  · intro b hb
    have hset := tally_set (RoundPc.holds b) hpc pc'
    have hold := h.once b hb
    have hnow := honce b hb
    simp only [hpcs, hmap]
    omega
  · exact fun p hp => (hmerges p hp).elim (h.merges p) id

/-- A step that only moves the thread and the mutex. -/
theorem RoundOk.move {B t : ℕ} {s : RoundState} {pc pc' : RoundPc} {m : Option ℕ}
    (h : RoundOk B s) (hpc : s.pcs[t]? = some pc)
    (hand : Lock.Handover t s.mutex pc.inCriticalSection m pc'.inCriticalSection)
    (hnew : RoundPcOk B s.map pc') (hholds : ∀ b < B, pc'.holds b = pc.holds b) :
    RoundOk B { s.goto t pc' with mutex := m } :=
  h.advance hpc rfl rfl hand hnew (fun b hb => congrArg _ (hholds b hb)) fun _ hp => .inl hp

theorem RoundOk.write {B t i : ℕ} {s : RoundState} (h : RoundOk B s)
    (hpc : s.pcs[t]? = some (.write i)) :
    RoundOk B { s.goto t (.save i) with map := setBusy s.map i } := by
  obtain ⟨heven, hpassed, hlt, hfree⟩ := h.pcs t _ hpc
  have hset : ∀ b, Busy (setBusy s.map i) b ↔ b = i ∨ Busy s.map b := fun b =>
    busy_setBusy (Nat.lt_trans hlt h.size)
  have hgrow : ∀ b, Busy s.map b → Busy (setBusy s.map i) b := fun b hb => (hset b).mpr (.inr hb)
  have hflag : (s.pcs.map RoundPc.inCriticalSection)[t]? =
      some (RoundPc.write i).inCriticalSection := by simp [hpc]
  constructor
  · rw [RoundState.goto, List.length_set]
    exact h.threads
  · rw [length_setBusy]
    exact h.size
  · rw [RoundState.goto, List.map_set]
    exact h.mutex.handover hflag (.keep rfl rfl)
  · intro u pcu hu
    rw [RoundState.goto] at hu
    rcases getElem?_set_cases hu with ⟨rfl, rfl⟩ | ⟨hne, hold⟩
    · exact ⟨heven, (hpassed.mono hgrow).succ heven ((hset i).mpr (.inl rfl)), hlt⟩
    · refine (h.pcs u pcu hold).mono hgrow fun j hj _ => ?_
      exact absurd (h.exclusive hpc (hj ▸ hold) rfl rfl).symm hne
  · intro j hj e he
    obtain ⟨e', he', hblock⟩ := get_setBusy he
    exact hblock.trans (h.entries j hj e' he')
  · exact hgrow B h.top
  · intro b hb hbusy
    rcases (hset b).mp hbusy with rfl | hbusy
    · exact heven
    · exact h.even b hb hbusy
  · intro b hb
    have htally := tally_set (RoundPc.holds b) hpc (.save i)
    have hold := h.once b hb
    have hmerged : ({ s.goto t (.save i) with map := setBusy s.map i } : RoundState).merged b =
      s.merged b := rfl
    rw [hmerged]
    simp only [SortIndex.RoundState.goto, hset b]
    by_cases hbi : b = i
    · subst hbi
      simp only [RoundPc.holds, if_true, hfree, decide_false, Bool.toNat_false, true_or,
        decide_true, Bool.toNat_true] at htally hold ⊢
      omega
    · simp only [RoundPc.holds, if_neg (Ne.symm hbi)] at htally
      simp only [hbi, false_or]
      omega
  · exact h.merges

theorem RoundOk.step {B t : ℕ} {s s' : RoundState} (h : RoundOk B s)
    (hstep : roundStep B s t = some s') : RoundOk B s' := by
  unfold roundStep at hstep
  split at hstep
  · cases hstep
  · rename_i pc hpc
    have hok := h.pcs t pc hpc
    cases pc with
    | head i =>
        obtain rfl := Option.some.inj hstep
        by_cases hi : i ≤ B
        · rw [if_pos hi]
          exact h.move hpc (.keep rfl rfl) ⟨hok.1, hok.2.1, hi⟩ fun _ _ => rfl
        · rw [if_neg hi]
          exact h.move hpc (.keep rfl rfl) (fun b hb => hok.2.1 b (by omega)) fun _ _ => rfl
    | lock i =>
        simp only [roundStepAt] at hstep
        split at hstep
        · cases hstep
        · rename_i m hm
          obtain rfl := Option.some.inj hstep
          obtain ⟨hfree, hm⟩ := Lock.mutex_acquire hm
          exact h.move hpc (.take hfree hm rfl) hok fun _ _ => rfl
    | read i =>
        simp only [roundStepAt] at hstep
        split at hstep
        · cases hstep
        · rename_i e he
          obtain rfl := Option.some.inj hstep
          by_cases hbusy : e.isBusy = 1
          · rw [if_neg (fun hne => hne hbusy)]
            have hpassed := hok.2.1.succ hok.1 ((isBusy_of_get he).mpr hbusy)
            refine h.move hpc (.keep rfl rfl) ⟨hok.1, hpassed, hok.2.2, .inl rfl⟩ fun b _ => ?_
            simp [RoundPc.holds]
          · rw [if_pos hbusy]
            have hfree : ¬ Busy s.map i := fun hb => hbusy ((isBusy_of_get he).mp hb)
            have hlt : i < B := by
              rcases Nat.lt_or_eq_of_le hok.2.2 with hlt | rfl
              · exact hlt
              · exact absurd h.top hfree
            exact h.move hpc (.keep rfl rfl) ⟨hok.1, hok.2.1, hlt, hfree⟩ fun _ _ => rfl
    | write i =>
        obtain rfl := Option.some.inj hstep
        exact h.write hpc
    | save i =>
        simp only [roundStepAt] at hstep
        split at hstep
        · cases hstep
        · rename_i e he
          obtain rfl := Option.some.inj hstep
          have hblock := h.entries i hok.2.2 e he
          have hle := Nat.le_of_lt hok.2.2
          refine h.move hpc (.keep rfl rfl) ⟨hok.1, hok.2.1, hle, .inr ⟨hblock, hok.2.2⟩⟩ ?_
          intro b _
          simp [RoundPc.holds, hblock]
    | unlock i sav =>
        obtain rfl := Option.some.inj hstep
        obtain ⟨heven, hpassed, hle, rfl | ⟨rfl, hlt⟩⟩ := hok
        · refine h.move hpc (.drop rfl rfl rfl) ⟨by omega, hpassed, by omega⟩ fun b _ => ?_
          simp [RoundPc.holds]
        · have hne : (i : ℤ) ≠ -1 := by omega
          rw [if_pos hne]
          exact h.move hpc (.drop rfl rfl rfl) ⟨heven, hpassed, rfl, hlt⟩ fun _ _ => rfl
    | merge i sav =>
        obtain rfl := Option.some.inj hstep
        obtain ⟨heven, hpassed, rfl, hlt⟩ := hok
        refine h.advance hpc rfl rfl (.keep rfl rfl) ⟨by omega, hpassed, by omega⟩
          (fun b _ => ?_) ?_
        · simp only [RoundState.merged, RoundPc.holds, List.map_append, List.count_append]
          simp [List.count_singleton]
        · intro p hp
          rcases List.mem_append.mp hp with hp | hp
          · exact .inl hp
          · obtain rfl := List.mem_singleton.mp hp
            exact .inr (by simpa using hlt)
    | done => cases hstep

/-! ## From round to round -/

/-- The table when thread 0 is about to free the blocks of a round with `BLOCKS = B`. -/
structure TableReady (B : ℕ) (map : List BlocksMap) : Prop where
  size : B < map.length
  entries : ∀ i < B, ∀ e, map[i]? = some e → e.block = i
  top : Busy map B

theorem RoundOk.init {B threads : ℕ} {map : List BlocksMap} (hthreads : 0 < threads)
    (h : TableReady B map) : RoundOk B (roundInit threads (resetMap B map)) where
  threads := by simpa [roundInit] using hthreads
  size := by simpa [roundInit, resetMap] using h.size
  mutex := by
    intro t
    simp only [roundInit, List.map_replicate, List.getElem?_replicate]
    split <;> simp [RoundPc.inCriticalSection]
  pcs := by
    intro t pc hpc
    obtain rfl := List.eq_of_mem_replicate (List.mem_of_getElem? hpc)
    exact ⟨rfl, fun b hb => absurd hb (Nat.not_lt_zero b), Nat.zero_le _⟩
  entries := by
    intro i hi e he
    obtain ⟨e', he', hblock⟩ := get_resetMap he
    exact hblock.trans (h.entries i hi e' he')
  top := busy_resetMap.mpr ⟨Nat.le_refl B, h.top⟩
  even b hb hbusy := absurd (busy_resetMap.mp hbusy).1 (Nat.not_le_of_lt hb)
  once := by
    intro b hb
    have hfree : ¬ Busy (resetMap B map) b := fun hbusy =>
      Nat.not_le_of_lt hb (busy_resetMap.mp hbusy).1
    have hnone : tally (RoundPc.holds b) (List.replicate threads (.head 0)) = 0 := by
      simp [tally, RoundPc.holds]
    simp [roundInit, RoundState.merged, hfree, hnone]
  merges _ h := by cases h

theorem roundOk_of_reaches {B threads : ℕ} {map : List BlocksMap} {s : RoundState}
    (hthreads : 0 < threads) (hmap : TableReady B map)
    (h : Reaches (roundStep B) anything (roundInit threads (resetMap B map)) s) : RoundOk B s :=
  h.invariant (RoundOk.init hthreads hmap) fun _ _ _ hu _ hstep => hu.step hstep

/-- Every thread has come to the next barrier. -/
def RoundState.Complete (s : RoundState) : Prop := ∀ pc ∈ s.pcs, pc = .done

instance RoundState.decidableComplete (s : RoundState) : Decidable s.Complete :=
  inferInstanceAs (Decidable (∀ pc ∈ s.pcs, pc = .done))

theorem RoundOk.passed {B : ℕ} {s : RoundState} (h : RoundOk B s) (hdone : s.Complete) :
    Passed B s.map B := by
  have hpc := h.pcs 0 _ (List.getElem?_eq_getElem h.threads)
  rw [hdone _ (List.getElem_mem h.threads)] at hpc
  exact hpc

/-- After a round the table is ready for the next one. -/
theorem RoundOk.ready {C : ℕ} {s : RoundState} (h : RoundOk (2 * C) s) (hdone : s.Complete)
    (hC : C % 2 = 0) (hpos : 0 < C) : TableReady C s.map where
  size := by
    have := h.size
    omega
  entries i hi := h.entries i (by omega)
  top := h.passed hdone C (by omega) (by omega) hC

/-- In every schedule each even block is merged exactly once. -/
theorem RoundOk.merges_perm {C : ℕ} {s : RoundState} (h : RoundOk (2 * C) s)
    (hdone : s.Complete) : (s.merges.map Prod.snd).Perm (evens (2 * C)) := by
  rw [List.perm_iff_count]
  intro b
  have hmem : b ∈ evens (2 * C) ↔ b < 2 * C ∧ b % 2 = 0 := by
    rw [mem_evens]
    constructor
    · rintro ⟨p, hp, rfl⟩
      omega
    · rintro ⟨hb, heven⟩
      exact ⟨b / 2, by omega, by omega⟩
  rcases Nat.lt_or_ge b (2 * C) with hb | hb
  · have honce := h.once b hb
    have hnone : tally (RoundPc.holds b) s.pcs = 0 := by
      apply List.sum_eq_zero
      intro n hn
      obtain ⟨pc, hpc, rfl⟩ := List.mem_map.mp hn
      rw [hdone pc hpc]
      rfl
    have hbusy : Busy s.map b ↔ b % 2 = 0 := ⟨h.even b hb, h.passed hdone b hb hb⟩
    rw [(nodup_evens (2 * C)).count]
    simp only [RoundState.merged, hnone, hbusy, Nat.add_zero] at honce
    rw [honce]
    simp only [hmem, hb, true_and]
    by_cases heven : b % 2 = 0 <;> simp [heven]
  · rw [List.count_eq_zero_of_not_mem, List.count_eq_zero_of_not_mem]
    · rw [hmem]
      omega
    · intro hin
      obtain ⟨p, hp, rfl⟩ := List.mem_map.mp hin
      exact absurd (h.merges p hp) (Nat.not_lt_of_le hb)

/-! ## Every schedule ends -/

/-- A bound on the steps that a thread has left. -/
def RoundPc.left (B : ℕ) : RoundPc → ℕ
  | .head i => 6 * (B + 3 - i)
  | .lock i => 6 * (B + 3 - i) - 1
  | .read i => 6 * (B + 3 - i) - 2
  | .write i => 6 * (B + 3 - i) - 3
  | .save i => 6 * (B + 3 - i) - 4
  | .unlock i _ => 6 * (B + 3 - i) - 5
  | .merge i _ => 6 * (B + 3 - i) - 6
  | .done => 0

def RoundState.left (B : ℕ) (s : RoundState) : ℕ := tally (RoundPc.left B) s.pcs

theorem RoundOk.enabled {B t : ℕ} {s : RoundState} {pc : RoundPc} (h : RoundOk B s)
    (hpc : s.pcs[t]? = some pc) (hdone : pc ≠ .done)
    (hmutex : s.mutex = none ∨ pc.inCriticalSection = true) :
    ∃ s', roundStep B s t = some s' ∧ s'.left B < s.left B := by
  have hok := h.pcs t pc hpc
  have hleft : ∀ {pc' : RoundPc} {s' : RoundState}, s'.pcs = s.pcs.set t pc' →
      pc'.left B < pc.left B → s'.left B < s.left B := by
    intro pc' s' hpcs hlt
    rw [RoundState.left, hpcs]
    exact tally_set_lt hpc hlt
  have hget : ∀ i ≤ B, ∃ e, s.map[i]? = some e := fun i hi =>
    ⟨_, List.getElem?_eq_getElem (Nat.lt_of_le_of_lt hi h.size)⟩
  simp only [roundStep, hpc]
  cases pc with
  | done => exact absurd rfl hdone
  | head i =>
      have hi := hok.2.2
      refine ⟨_, rfl, hleft rfl ?_⟩
      split <;> simp only [RoundPc.left] <;> omega
  | lock i =>
      have hfree := hmutex.resolve_right (by simp [RoundPc.inCriticalSection])
      have hi := hok.2.2
      simp only [roundStepAt, hfree, Lock.mutex]
      exact ⟨_, rfl, hleft rfl (by simp only [RoundPc.left]; omega)⟩
  | read i =>
      have hi := hok.2.2
      obtain ⟨e, he⟩ := hget i hi
      simp only [roundStepAt, he]
      refine ⟨_, rfl, hleft rfl ?_⟩
      split <;> simp only [RoundPc.left] <;> omega
  | write i =>
      have hi := hok.2.2.1
      exact ⟨_, rfl, hleft rfl (by simp only [RoundPc.left]; omega)⟩
  | save i =>
      have hi := hok.2.2
      obtain ⟨e, he⟩ := hget i (Nat.le_of_lt hi)
      simp only [roundStepAt, he]
      exact ⟨_, rfl, hleft rfl (by simp only [RoundPc.left]; omega)⟩
  | unlock i sav =>
      have hi := hok.2.2.1
      refine ⟨_, rfl, hleft rfl ?_⟩
      split <;> simp only [RoundPc.left] <;> omega
  | merge i sav =>
      have hi := hok.2.2.2
      exact ⟨_, rfl, hleft rfl (by simp only [RoundPc.left]; omega)⟩

theorem RoundOk.progress {B : ℕ} {s : RoundState} (h : RoundOk B s) (hdone : ¬ s.Complete) :
    ∃ t s', roundStep B s t = some s' ∧ s'.left B < s.left B := by
  have hfinal : ∀ pc : RoundPc, pc = .done → pc.inCriticalSection = false := by
    rintro pc rfl
    rfl
  obtain ⟨t, pc, ht, hpc, hable⟩ := h.mutex.exists_able hfinal hdone
  exact ⟨t, h.enabled ht hpc hable⟩

theorem round_completes {B threads : ℕ} {map : List BlocksMap} (hthreads : 0 < threads)
    (hmap : TableReady B map) :
    ∃ s, Reaches (roundStep B) anything (roundInit threads (resetMap B map)) s ∧ s.Complete :=
  exists_final (I := RoundOk B) (RoundState.left B) (fun _ _ _ hu hstep => hu.step hstep)
    (fun _ hu hdone => hu.progress hdone) (RoundOk.init hthreads hmap)

end OsaspLabs.SortIndex
