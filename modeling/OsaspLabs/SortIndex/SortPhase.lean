import OsaspLabs.Library.Lock
import OsaspLabs.Library.Runs
import OsaspLabs.Library.Tally
import OsaspLabs.SortIndex.BlocksMap

/-! # `sortPhase` of LAB_6

The threads `0, …, amount` share the blocks of a window through `map`. Only the control
is modelled here: which thread hands which block to `qsort`. -/

namespace OsaspLabs.SortIndex

open Runs

/-- Where a thread is in `sortPhase`; `i` is its loop counter. -/
inductive SortPc where
  /-- `map[arguments -> no].isBusy = 1` -/
  | reserve
  /-- About to sort its own block. -/
  | ownSort
  | ownSorting
  /-- The test of the loop and the first test of `map[i]`. -/
  | scan (i : ℕ)
  | lock (i : ℕ)
  /-- The second test, with the mutex held. -/
  | retest (i : ℕ)
  /-- `map[i].isBusy = 1` -/
  | claim (i : ℕ)
  /-- The unlock before `continue`. -/
  | unlockTaken (i : ℕ)
  | unlock (i : ℕ)
  /-- About to sort the claimed block. -/
  | sort (i : ℕ)
  | sorting (i : ℕ)
  | done
  deriving DecidableEq

structure SortState where
  map : List BlocksMap
  mutex : Option ℕ
  /-- The threads by their `no`; the main thread has number 0. -/
  pcs : List SortPc
  /-- Every block handed to `qsort` so far, with its thread. -/
  qsorts : List (ℕ × ℕ)
  /-- Every block claimed in the loop so far, with its thread. -/
  claims : List (ℕ × ℕ)

def sortInit (amount blocks : ℕ) : SortState :=
  ⟨initMap amount blocks, none, List.replicate (amount + 1) .reserve, [], []⟩

/-- The thread `t` goes to `pc`. -/
def SortState.goto (s : SortState) (t : ℕ) (pc : SortPc) : SortState :=
  { s with pcs := s.pcs.set t pc }

/-- One step of thread `t` at `pc`. -/
def sortStepAt (blocks : ℕ) (s : SortState) (t : ℕ) : SortPc → Option SortState
  | .reserve => some { s.goto t .ownSort with map := setBusy s.map t }
  | .ownSort => some { s.goto t .ownSorting with qsorts := s.qsorts ++ [(t, t)] }
  | .ownSorting => some (s.goto t (.scan t))
  | .scan i =>
      if i < blocks then
        match s.map[i]? with
        | none => none
        | some e => some (s.goto t (if e.isBusy ≠ 1 then .lock i else .scan (i + 1)))
      else some (s.goto t .done)
  | .lock i =>
      match Lock.mutex.acquire s.mutex t with
      | none => none
      | some m => some { s.goto t (.retest i) with mutex := m }
  | .retest i =>
      match s.map[i]? with
      | none => none
      | some e => some (s.goto t (if e.isBusy ≠ 1 then .claim i else .unlockTaken i))
  | .claim i =>
      some { s.goto t (.unlock i) with map := setBusy s.map i, claims := s.claims ++ [(t, i)] }
  | .unlockTaken i =>
      some { s.goto t (.scan (i + 1)) with mutex := Lock.mutex.release s.mutex t }
  | .unlock i => some { s.goto t (.sort i) with mutex := Lock.mutex.release s.mutex t }
  | .sort i => some { s.goto t (.sorting i) with qsorts := s.qsorts ++ [(t, i)] }
  | .sorting i => some (s.goto t (.scan (i + 1)))
  | .done => none

def sortStep (blocks : ℕ) (s : SortState) (t : ℕ) : Option SortState :=
  match s.pcs[t]? with
  | none => none
  | some pc => sortStepAt blocks s t pc

/-! ## What holds of a thread at its place -/

def SortPc.inCriticalSection : SortPc → Bool
  | .retest _ | .claim _ | .unlockTaken _ | .unlock _ => true
  | _ => false

/-- Every block that thread `t` has passed in its loop is taken. -/
def Scanned (s : SortState) (t i : ℕ) : Prop := ∀ b, t ≤ b → b < i → Busy s.map b

def SortPcOk (amount blocks : ℕ) (s : SortState) (t : ℕ) : SortPc → Prop
  | .reserve | .ownSort => True
  | .ownSorting => (t, t) ∈ s.qsorts
  | .scan i => (t, t) ∈ s.qsorts ∧ Scanned s t i
  | .lock i | .retest i => (t, t) ∈ s.qsorts ∧ Scanned s t i ∧ amount ≤ i ∧ i < blocks
  | .claim i =>
      (t, t) ∈ s.qsorts ∧ Scanned s t i ∧ amount ≤ i ∧ i < blocks ∧
        (amount < i → ¬ Busy s.map i)
  | .unlockTaken i => (t, t) ∈ s.qsorts ∧ Scanned s t (i + 1) ∧ i < blocks
  | .unlock i | .sort i =>
      (t, t) ∈ s.qsorts ∧ Scanned s t (i + 1) ∧ (t, i) ∈ s.claims ∧ i < blocks
  | .sorting i => (t, t) ∈ s.qsorts ∧ Scanned s t (i + 1) ∧ i < blocks
  | .done => (t, t) ∈ s.qsorts ∧ Scanned s t blocks

structure SortOk (amount blocks : ℕ) (s : SortState) : Prop where
  threads : s.pcs.length = amount + 1
  size : s.map.length = blocks
  entries : ∀ (i : ℕ) (e : BlocksMap), s.map[i]? = some e → e.block = i
  mutex : Lock.OwnedBy s.mutex (s.pcs.map SortPc.inCriticalSection)
  pcs : ∀ t pc, s.pcs[t]? = some pc → SortPcOk amount blocks s t pc
  reserved : ∀ b < amount, Busy s.map b
  claims_ge : ∀ t b, (t, b) ∈ s.claims → amount ≤ b ∧ Busy s.map b
  claimed : ∀ b, amount < b → Busy s.map b → ∃ t, (t, b) ∈ s.claims
  unique : ∀ t u b, amount < b → (t, b) ∈ s.claims → (u, b) ∈ s.claims → t = u
  qsorts : ∀ t b, (t, b) ∈ s.qsorts → t ≤ amount ∧ (b = t ∨ (t, b) ∈ s.claims)
  sorted : ∀ t b, (t, b) ∈ s.claims → (t, b) ∈ s.qsorts ∨
    s.pcs[t]? = some (.unlock b) ∨ s.pcs[t]? = some (.sort b)

/-- The logs and the taken blocks only grow. -/
structure Grows (s s' : SortState) : Prop where
  map : ∀ b, Busy s.map b → Busy s'.map b
  qsorts : ∀ p ∈ s.qsorts, p ∈ s'.qsorts
  claims : ∀ p ∈ s.claims, p ∈ s'.claims

theorem Scanned.mono {s s' : SortState} {t i : ℕ} (h : Scanned s t i) (hs : Grows s s') :
    Scanned s' t i := fun b htb hbi => hs.map b (h b htb hbi)

/-- What holds of a thread survives the steps of the others, as long as nobody takes the
block that it is about to claim. -/
theorem SortPcOk.mono {amount blocks t : ℕ} {s s' : SortState} {pc : SortPc}
    (h : SortPcOk amount blocks s t pc) (hs : Grows s s')
    (hclaim : ∀ i, pc = .claim i → amount < i → Busy s'.map i → Busy s.map i) :
    SortPcOk amount blocks s' t pc := by
  cases pc with
  | reserve | ownSort => trivial
  | ownSorting => exact hs.qsorts _ h
  | scan i => exact ⟨hs.qsorts _ h.1, h.2.mono hs⟩
  | lock i | retest i => exact ⟨hs.qsorts _ h.1, h.2.1.mono hs, h.2.2⟩
  | claim i =>
      exact ⟨hs.qsorts _ h.1, h.2.1.mono hs, h.2.2.1, h.2.2.2.1, fun hi hbusy =>
        h.2.2.2.2 hi (hclaim i rfl hi hbusy)⟩
  | unlockTaken i | sorting i => exact ⟨hs.qsorts _ h.1, h.2.1.mono hs, h.2.2⟩
  | done => exact ⟨hs.qsorts _ h.1, h.2.mono hs⟩
  | unlock i | sort i =>
      exact ⟨hs.qsorts _ h.1, h.2.1.mono hs, hs.claims _ h.2.2.1, h.2.2.2⟩

/-! ## Each step keeps the invariant -/

theorem pcs_of_set {amount blocks t : ℕ} {s s' : SortState} {pc' : SortPc}
    (h : ∀ u pc, s.pcs[u]? = some pc → SortPcOk amount blocks s u pc)
    (hpcs : s'.pcs = s.pcs.set t pc') (hgrow : Grows s s')
    (hclaim : ∀ u i, u ≠ t → s.pcs[u]? = some (.claim i) → amount < i → Busy s'.map i →
      Busy s.map i)
    (hnew : SortPcOk amount blocks s' t pc') :
    ∀ u pc, s'.pcs[u]? = some pc → SortPcOk amount blocks s' u pc := by
  intro u pc hu
  rw [hpcs] at hu
  rcases getElem?_set_cases hu with ⟨rfl, rfl⟩ | ⟨hne, hold⟩
  · exact hnew
  · exact (h u pc hold).mono hgrow fun i hi => hclaim u i hne (hi ▸ hold)

/-- A step that claims nothing. -/
theorem SortOk.advance {amount blocks t : ℕ} {s s' : SortState} {pc pc' : SortPc}
    (h : SortOk amount blocks s) (hpc : s.pcs[t]? = some pc) (hpcs : s'.pcs = s.pcs.set t pc')
    (hsize : s'.map.length = s.map.length)
    (hentries : ∀ (i : ℕ) (e : BlocksMap), s'.map[i]? = some e →
      ∃ e', s.map[i]? = some e' ∧ e.block = e'.block)
    (hgrow : Grows s s') (hclaims : s'.claims = s.claims)
    (hbusy : ∀ b, Busy s'.map b → b ≤ amount ∨ Busy s.map b)
    (hand : Lock.Handover t s.mutex pc.inCriticalSection s'.mutex pc'.inCriticalSection)
    (hnew : SortPcOk amount blocks s' t pc')
    (hqsorts : ∀ u b, (u, b) ∈ s'.qsorts →
      (u, b) ∈ s.qsorts ∨ u = t ∧ (b = t ∨ (t, b) ∈ s.claims))
    (hleave : ∀ b, pc = .unlock b ∨ pc = .sort b →
      (t, b) ∈ s'.qsorts ∨ pc' = .unlock b ∨ pc' = .sort b) :
    SortOk amount blocks s' := by
  obtain ⟨htlt, _⟩ := List.getElem?_eq_some_iff.mp hpc
  constructor
  · rw [hpcs, List.length_set, h.threads]
  · rw [hsize, h.size]
  · intro i e he
    obtain ⟨e', he', hblock⟩ := hentries i e he
    exact hblock.trans (h.entries i e' he')
  · rw [hpcs, List.map_set]
    exact h.mutex.handover (by simp [hpc]) hand
  · exact pcs_of_set h.pcs hpcs hgrow
      (fun u i _ _ hi hb => (hbusy i hb).resolve_left (by omega)) hnew
  · exact fun b hb => hgrow.map b (h.reserved b hb)
  · intro u b hub
    rw [hclaims] at hub
    exact ⟨(h.claims_ge u b hub).1, hgrow.map b (h.claims_ge u b hub).2⟩
  · intro b hb hbusy'
    rw [hclaims]
    exact h.claimed b hb ((hbusy b hbusy').resolve_left (by omega))
  · rw [hclaims]
    exact h.unique
  · intro u b hub
    rw [hclaims]
    rcases hqsorts u b hub with hub | ⟨rfl, hb⟩
    · exact h.qsorts u b hub
    · exact ⟨by have := h.threads; omega, hb⟩
  · intro u b hub
    rw [hclaims] at hub
    rw [hpcs]
    by_cases htu : t = u
    · subst htu
      rw [List.getElem?_set_self htlt]
      have hold := h.sorted t b hub
      rw [hpc] at hold
      rcases hold with hq | hu | hs
      · exact .inl (hgrow.qsorts _ hq)
      · simpa using hleave b (.inl (Option.some.inj hu))
      · simpa using hleave b (.inr (Option.some.inj hs))
    · rw [List.getElem?_set_ne htu]
      exact (h.sorted u b hub).imp_left (hgrow.qsorts _)

/-- No other thread is about to claim while one is in the critical section. -/
theorem SortOk.exclusive {amount blocks t u : ℕ} {s : SortState} {pc pc' : SortPc}
    (h : SortOk amount blocks s) (ht : s.pcs[t]? = some pc) (hu : s.pcs[u]? = some pc')
    (hpc : pc.inCriticalSection = true) (hpc' : pc'.inCriticalSection = true) : t = u := by
  have hmt := (h.mutex t).mpr (by simp [ht, hpc])
  have hmu := (h.mutex u).mpr (by simp [hu, hpc'])
  exact Option.some.inj (hmt.symm.trans hmu)

theorem SortOk.claim {amount blocks t i : ℕ} {s : SortState} (h : SortOk amount blocks s)
    (hpc : s.pcs[t]? = some (.claim i)) :
    SortOk amount blocks
      { s.goto t (.unlock i) with map := setBusy s.map i, claims := s.claims ++ [(t, i)] } := by
  obtain ⟨htlt, _⟩ := List.getElem?_eq_some_iff.mp hpc
  obtain ⟨hown, hscan, hge, hlt, hfree⟩ := h.pcs t _ hpc
  have hset : ∀ b, Busy (setBusy s.map i) b ↔ b = i ∨ Busy s.map b := fun b =>
    busy_setBusy (h.size ▸ hlt)
  have hgrow : Grows s
      { s.goto t (.unlock i) with map := setBusy s.map i, claims := s.claims ++ [(t, i)] } :=
    ⟨fun b hb => (hset b).mpr (.inr hb), fun _ hp => hp, fun _ hp => List.mem_append_left _ hp⟩
  have hclaims : ∀ u b, (u, b) ∈ s.claims ++ [(t, i)] ↔ (u, b) ∈ s.claims ∨ u = t ∧ b = i := by
    simp
  constructor
  · rw [SortState.goto, List.length_set, h.threads]
  · rw [length_setBusy, h.size]
  · intro j e he
    obtain ⟨e', he', hblock⟩ := get_setBusy he
    exact hblock.trans (h.entries j e' he')
  · have hflag : (s.pcs.map SortPc.inCriticalSection)[t]? =
        some (SortPc.claim i).inCriticalSection := by simp [hpc]
    rw [SortState.goto, List.map_set]
    exact h.mutex.handover hflag (.keep rfl rfl)
  · refine pcs_of_set h.pcs rfl hgrow (fun u j hut hu hj hb => ?_) ⟨hown, ?_, by simp, hlt⟩
    · exact absurd (h.exclusive hu hpc rfl rfl) hut
    · intro b htb hbi
      rcases Nat.lt_succ_iff_lt_or_eq.mp hbi with hlt' | rfl
      · exact (hset b).mpr (.inr (hscan b htb hlt'))
      · exact (hset b).mpr (.inl rfl)
  · exact fun b hb => (hset b).mpr (.inr (h.reserved b hb))
  · intro u b hub
    rcases (hclaims u b).mp hub with hub | ⟨_, rfl⟩
    · exact ⟨(h.claims_ge u b hub).1, (hset b).mpr (.inr (h.claims_ge u b hub).2)⟩
    · exact ⟨hge, (hset b).mpr (.inl rfl)⟩
  · intro b hb hbusy
    rcases (hset b).mp hbusy with rfl | hbusy
    · exact ⟨t, (hclaims t b).mpr (.inr ⟨rfl, rfl⟩)⟩
    · obtain ⟨u, hu⟩ := h.claimed b hb hbusy
      exact ⟨u, (hclaims u b).mpr (.inl hu)⟩
  · intro u v b hb hu hv
    rcases (hclaims u b).mp hu with hu' | ⟨hut, hbi⟩ <;>
      rcases (hclaims v b).mp hv with hv' | ⟨hvt, hbi'⟩
    · exact h.unique u v b hb hu' hv'
    · exact absurd (hbi' ▸ (h.claims_ge u b hu').2) (hfree (hbi' ▸ hb))
    · exact absurd (hbi ▸ (h.claims_ge v b hv').2) (hfree (hbi ▸ hb))
    · exact hut.trans hvt.symm
  · intro u b hub
    exact ⟨(h.qsorts u b hub).1, (h.qsorts u b hub).2.imp_right (List.mem_append_left _)⟩
  · intro u b hub
    simp only [SortState.goto]
    rcases (hclaims u b).mp hub with hub | ⟨rfl, rfl⟩
    · by_cases htu : t = u
      · subst htu
        have hold := h.sorted t b hub
        simp only [hpc] at hold
        exact .inl (hold.resolve_right (by simp))
      · rw [List.getElem?_set_ne htu]
        exact h.sorted u b hub
    · exact .inr (.inl (List.getElem?_set_self htlt))

/-- A step that only moves the thread and the mutex. -/
theorem SortOk.move {amount blocks t : ℕ} {s : SortState} {pc pc' : SortPc} {m : Option ℕ}
    (h : SortOk amount blocks s) (hpc : s.pcs[t]? = some pc)
    (hand : Lock.Handover t s.mutex pc.inCriticalSection m pc'.inCriticalSection)
    (hnew : SortPcOk amount blocks s t pc')
    (hleave : ∀ b, pc = .unlock b ∨ pc = .sort b → pc' = .sort b) :
    SortOk amount blocks { s.goto t pc' with mutex := m } := by
  have hgrow : Grows s { s.goto t pc' with mutex := m } :=
    ⟨fun _ hb => hb, fun _ hp => hp, fun _ hp => hp⟩
  exact h.advance hpc rfl rfl (fun _ e he => ⟨e, he, rfl⟩) hgrow rfl (fun _ hb => .inr hb) hand
    (hnew.mono hgrow fun _ _ _ hb => hb) (fun _ _ hp => .inl hp)
    fun b hb => .inr (.inr (hleave b hb))

/-- A step that hands block `b` to `qsort`. -/
theorem SortOk.qsort {amount blocks t b : ℕ} {s : SortState} {pc pc' : SortPc}
    (h : SortOk amount blocks s) (hpc : s.pcs[t]? = some pc)
    (hout : pc.inCriticalSection = false) (hout' : pc'.inCriticalSection = false)
    (hb : b = t ∨ (t, b) ∈ s.claims)
    (hnew : SortPcOk amount blocks { s with qsorts := s.qsorts ++ [(t, b)] } t pc')
    (hleave : ∀ c, pc = .unlock c ∨ pc = .sort c → c = b) :
    SortOk amount blocks { s.goto t pc' with qsorts := s.qsorts ++ [(t, b)] } := by
  have hgrow : Grows s { s.goto t pc' with qsorts := s.qsorts ++ [(t, b)] } :=
    ⟨fun _ hb => hb, fun _ hp => List.mem_append_left _ hp, fun _ hp => hp⟩
  refine h.advance hpc rfl rfl (fun _ e he => ⟨e, he, rfl⟩) hgrow rfl (fun _ hb => .inr hb)
    (.keep rfl (hout'.trans hout.symm))
    (hnew.mono ⟨fun _ hb => hb, fun _ hp => hp, fun _ hp => hp⟩ fun _ _ _ hb => hb)
    (fun u c hp => ?_) fun c hc => .inl ?_
  · rcases List.mem_append.mp hp with hp | hp
    · exact .inl hp
    · obtain ⟨rfl, rfl⟩ := Prod.mk.inj (List.mem_singleton.mp hp)
      exact .inr ⟨rfl, hb⟩
  · rw [hleave c hc]
    exact List.mem_append_right _ (List.mem_singleton.mpr rfl)

theorem Scanned.succ {s : SortState} {t i : ℕ} (h : Scanned s t i) (hi : Busy s.map i) :
    Scanned s t (i + 1) := by
  intro b htb hbi
  rcases Nat.lt_succ_iff_lt_or_eq.mp hbi with hlt | rfl
  · exact h b htb hlt
  · exact hi

theorem SortOk.step {amount blocks t : ℕ} {s s' : SortState} (h : SortOk amount blocks s)
    (hamount : amount < blocks) (hstep : sortStep blocks s t = some s') :
    SortOk amount blocks s' := by
  unfold sortStep at hstep
  split at hstep
  · cases hstep
  · rename_i pc hpc
    have ht : t ≤ amount := by
      obtain ⟨htlt, _⟩ := List.getElem?_eq_some_iff.mp hpc
      have := h.threads
      omega
    have hok := h.pcs t pc hpc
    cases pc with
    | reserve =>
        obtain rfl := Option.some.inj hstep
        have hset : ∀ b, Busy (setBusy s.map t) b ↔ b = t ∨ Busy s.map b := fun b =>
          busy_setBusy (by have := h.size; omega)
        have hgrows : ∀ b, Busy s.map b → Busy (setBusy s.map t) b := fun b hb =>
          (hset b).mpr (.inr hb)
        refine h.advance hpc rfl (length_setBusy _ _) (fun _ _ => get_setBusy)
          ⟨hgrows, fun _ hp => hp, fun _ hp => hp⟩ rfl (fun b hb => ?_) (.keep rfl rfl) trivial
          (fun _ _ hp => .inl hp) (by simp)
        rcases (hset b).mp hb with rfl | hb
        · exact .inl ht
        · exact .inr hb
    | ownSort =>
        obtain rfl := Option.some.inj hstep
        exact h.qsort hpc rfl rfl (.inl rfl) (by simp [SortPcOk]) (by simp)
    | ownSorting =>
        obtain rfl := Option.some.inj hstep
        refine h.move hpc (.keep rfl rfl) ⟨hok, fun b htb hbt => ?_⟩ (by simp)
        omega
    | scan i =>
        simp only [sortStepAt] at hstep
        split at hstep
        · split at hstep
          · cases hstep
          · rename_i e he
            obtain rfl := Option.some.inj hstep
            by_cases hbusy : e.isBusy = 1
            · rw [if_neg (fun hne => hne hbusy)]
              exact h.move hpc (.keep rfl rfl) ⟨hok.1, hok.2.succ ((isBusy_of_get he).mpr hbusy)⟩
                (by simp)
            · rw [if_pos hbusy]
              have hge : amount ≤ i := Nat.le_of_not_lt fun hlt =>
                hbusy ((isBusy_of_get he).mp (h.reserved i hlt))
              exact h.move hpc (.keep rfl rfl) ⟨hok.1, hok.2, hge, by assumption⟩ (by simp)
        · rename_i hend
          obtain rfl := Option.some.inj hstep
          exact h.move hpc (.keep rfl rfl) ⟨hok.1, fun b htb hb => hok.2 b htb (by omega)⟩
            (by simp)
    | lock i =>
        simp only [sortStepAt] at hstep
        split at hstep
        · cases hstep
        · rename_i m hm
          obtain rfl := Option.some.inj hstep
          obtain ⟨hfree, hm⟩ := Lock.mutex_acquire hm
          exact h.move hpc (.take hfree hm rfl) hok (by simp)
    | retest i =>
        simp only [sortStepAt] at hstep
        split at hstep
        · cases hstep
        · rename_i e he
          obtain rfl := Option.some.inj hstep
          by_cases hbusy : e.isBusy = 1
          · rw [if_neg (fun hne => hne hbusy)]
            exact h.move hpc (.keep rfl rfl)
              ⟨hok.1, hok.2.1.succ ((isBusy_of_get he).mpr hbusy), hok.2.2.2⟩ (by simp)
          · rw [if_pos hbusy]
            exact h.move hpc (.keep rfl rfl) ⟨hok.1, hok.2.1, hok.2.2.1, hok.2.2.2, fun _ hb =>
              hbusy ((isBusy_of_get he).mp hb)⟩ (by simp)
    | claim i =>
        obtain rfl := Option.some.inj hstep
        exact h.claim hpc
    | unlockTaken i =>
        obtain rfl := Option.some.inj hstep
        exact h.move hpc (.drop rfl rfl rfl) ⟨hok.1, hok.2.1⟩ (by simp)
    | unlock i =>
        obtain rfl := Option.some.inj hstep
        exact h.move hpc (.drop rfl rfl rfl) hok (by simp)
    | sort i =>
        obtain rfl := Option.some.inj hstep
        exact h.qsort hpc rfl rfl (.inr hok.2.2.1)
          ⟨List.mem_append_left _ hok.1, hok.2.1, hok.2.2.2⟩ (by simp)
    | sorting i =>
        obtain rfl := Option.some.inj hstep
        exact h.move hpc (.keep rfl rfl) ⟨hok.1, hok.2.1⟩ (by simp)
    | done => cases hstep

/-! ## Whole runs -/

theorem SortOk.init {amount blocks : ℕ} (hamount : amount < blocks) :
    SortOk amount blocks (sortInit amount blocks) where
  threads := List.length_replicate
  size := by simp [sortInit, initMap]
  entries _ _ := get_initMap
  mutex := by
    intro t
    simp only [sortInit, List.map_replicate, List.getElem?_replicate]
    split <;> simp [SortPc.inCriticalSection]
  pcs := by
    intro t pc hpc
    obtain rfl := List.eq_of_mem_replicate (List.mem_of_getElem? hpc)
    trivial
  reserved b hb := busy_initMap.mpr ⟨by omega, hb⟩
  claims_ge _ _ h := by cases h
  claimed b hb hbusy := by
    have := (busy_initMap.mp hbusy).2
    omega
  unique _ _ _ _ h := by cases h
  qsorts _ _ h := by cases h
  sorted _ _ h := by cases h

theorem sortOk_of_reaches {amount blocks : ℕ} {allowed : SortState → ℕ → Prop} {s : SortState}
    (hamount : amount < blocks)
    (h : Reaches (sortStep blocks) allowed (sortInit amount blocks) s) :
    SortOk amount blocks s :=
  h.invariant (SortOk.init hamount) fun _ _ _ hu _ hstep => hu.step hamount hstep

/-- Every thread has left `sortPhase`. -/
def SortState.Complete (s : SortState) : Prop := ∀ pc ∈ s.pcs, pc = .done

instance SortState.decidableComplete (s : SortState) : Decidable s.Complete :=
  inferInstanceAs (Decidable (∀ pc ∈ s.pcs, pc = .done))

theorem SortOk.done {amount blocks t : ℕ} {s : SortState} (h : SortOk amount blocks s)
    (hdone : s.Complete) (ht : t ≤ amount) : s.pcs[t]? = some .done := by
  have htlt : t < s.pcs.length := by
    have := h.threads
    omega
  rw [List.getElem?_eq_getElem htlt, hdone _ (List.getElem_mem htlt)]

/-- When all threads are done, every claimed block has been sorted by its claimer. -/
theorem SortOk.sorted_of_complete {amount blocks t b : ℕ} {s : SortState}
    (h : SortOk amount blocks s) (hdone : s.Complete) (hclaim : (t, b) ∈ s.claims) :
    (t, b) ∈ s.qsorts := by
  refine (h.sorted t b hclaim).resolve_right ?_
  rintro (hpc | hpc) <;> cases hdone _ (List.mem_of_getElem? hpc)

/-- When all threads are done, every block has been sorted. -/
theorem SortOk.covers {amount blocks b : ℕ} {s : SortState} (h : SortOk amount blocks s)
    (hdone : s.Complete) (hb : b < blocks) : ∃ t, (t, b) ∈ s.qsorts := by
  rcases Nat.lt_or_ge amount b with hgt | hle
  · have hscan := (h.pcs 0 _ (h.done hdone (Nat.zero_le amount))).2
    obtain ⟨t, ht⟩ := h.claimed b hgt (hscan b (Nat.zero_le b) hb)
    exact ⟨t, h.sorted_of_complete hdone ht⟩
  · exact ⟨b, (h.pcs b _ (h.done hdone hle)).1⟩

theorem SortOk.qsorts_lt {amount blocks t b : ℕ} {s : SortState} (h : SortOk amount blocks s)
    (hamount : amount < blocks) (hq : (t, b) ∈ s.qsorts) : b < blocks := by
  obtain ⟨ht, rfl | hclaim⟩ := h.qsorts t b hq
  · omega
  · obtain ⟨e, he, _⟩ := (h.claims_ge t b hclaim).2
    obtain ⟨hlt, _⟩ := List.getElem?_eq_some_iff.mp he
    exact h.size ▸ hlt

/-! ## Every schedule ends -/

/-- A bound on the steps that a thread has left. -/
def SortPc.left (blocks : ℕ) : SortPc → ℕ
  | .reserve => 8 * blocks + 4
  | .ownSort => 8 * blocks + 3
  | .ownSorting => 8 * blocks + 2
  | .scan i => 8 * (blocks - i) + 1
  | .lock i => 8 * (blocks - i)
  | .retest i => 8 * (blocks - i) - 1
  | .claim i => 8 * (blocks - i) - 2
  | .unlockTaken i => 8 * (blocks - i) - 2
  | .unlock i => 8 * (blocks - i) - 3
  | .sort i => 8 * (blocks - i) - 4
  | .sorting i => 8 * (blocks - i) - 5
  | .done => 0

def SortState.left (blocks : ℕ) (s : SortState) : ℕ := tally (SortPc.left blocks) s.pcs

/-- A thread that is not done can take a step unless it waits for the mutex, and every step
brings it closer to the end. -/
theorem SortOk.enabled {amount blocks t : ℕ} {s : SortState} {pc : SortPc}
    (h : SortOk amount blocks s) (hpc : s.pcs[t]? = some pc) (hdone : pc ≠ .done)
    (hmutex : s.mutex = none ∨ pc.inCriticalSection = true) :
    ∃ s', sortStep blocks s t = some s' ∧ s'.left blocks < s.left blocks := by
  have hok := h.pcs t pc hpc
  have hleft : ∀ {pc' : SortPc} {s' : SortState}, s'.pcs = s.pcs.set t pc' →
      pc'.left blocks < pc.left blocks → s'.left blocks < s.left blocks := by
    intro pc' s' hpcs hlt
    rw [SortState.left, hpcs]
    exact tally_set_lt hpc hlt
  have hget : ∀ i < blocks, ∃ e, s.map[i]? = some e := fun i hi =>
    ⟨_, List.getElem?_eq_getElem (h.size.symm ▸ hi)⟩
  simp only [sortStep, hpc]
  cases pc with
  | done => exact absurd rfl hdone
  | reserve => exact ⟨_, rfl, hleft rfl (by simp [SortPc.left])⟩
  | ownSort => exact ⟨_, rfl, hleft rfl (by simp [SortPc.left])⟩
  | ownSorting => exact ⟨_, rfl, hleft rfl (by simp only [SortPc.left]; omega)⟩
  | scan i =>
      by_cases hi : i < blocks
      · obtain ⟨e, he⟩ := hget i hi
        simp only [sortStepAt, if_pos hi, he]
        refine ⟨_, rfl, hleft rfl ?_⟩
        split <;> simp only [SortPc.left] <;> omega
      · simp only [sortStepAt, if_neg hi]
        exact ⟨_, rfl, hleft rfl (by simp [SortPc.left])⟩
  | lock i =>
      have hfree := hmutex.resolve_right (by simp [SortPc.inCriticalSection])
      have hi := hok.2.2.2
      simp only [sortStepAt, hfree, Lock.mutex]
      exact ⟨_, rfl, hleft rfl (by simp only [SortPc.left]; omega)⟩
  | retest i =>
      have hi := hok.2.2.2
      obtain ⟨e, he⟩ := hget i hi
      simp only [sortStepAt, he]
      refine ⟨_, rfl, hleft rfl ?_⟩
      split <;> simp only [SortPc.left] <;> omega
  | claim i =>
      have hi := hok.2.2.2.1
      exact ⟨_, rfl, hleft rfl (by simp only [SortPc.left]; omega)⟩
  | unlockTaken i | sorting i =>
      have hi := hok.2.2
      exact ⟨_, rfl, hleft rfl (by simp only [SortPc.left]; omega)⟩
  | unlock i | sort i =>
      have hi := hok.2.2.2
      exact ⟨_, rfl, hleft rfl (by simp only [SortPc.left]; omega)⟩

/-- The owner of the mutex, or else any thread that is not done, can take a step. -/
theorem SortOk.progress {amount blocks : ℕ} {s : SortState} (h : SortOk amount blocks s)
    (hdone : ¬ s.Complete) :
    ∃ t s', sortStep blocks s t = some s' ∧ s'.left blocks < s.left blocks := by
  have hfinal : ∀ pc : SortPc, pc = .done → pc.inCriticalSection = false := by
    rintro pc rfl
    rfl
  obtain ⟨t, pc, ht, hpc, hable⟩ := h.mutex.exists_able hfinal hdone
  exact ⟨t, h.enabled ht hpc hable⟩

theorem sortPhase_completes {amount blocks : ℕ} (hamount : amount < blocks) :
    ∃ s, Reaches (sortStep blocks) anything (sortInit amount blocks) s ∧ s.Complete :=
  exists_final (I := SortOk amount blocks) (SortState.left blocks)
    (fun _ _ _ hu hstep => hu.step hamount hstep) (fun _ hu hdone => hu.progress hdone)
    (SortOk.init hamount)

end OsaspLabs.SortIndex
