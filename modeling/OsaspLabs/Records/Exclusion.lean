import OsaspLabs.Library.Tally
import OsaspLabs.Records.Sessions

/-! # Who writes a slot of LAB_7 p2

ADD and PUT test for a lock, take it and go on to `put_record` whether they got it or not. -/

namespace OsaspLabs.Records

open Runs CString

/-- The session `k` has the write lock on the slot. -/
def HoldsLock (locks : ℕ → Option ℕ) (k : ℕ) (recordNum : ℤ) : Prop :=
  0 ≤ recordNum ∧ locks recordNum.toNat = some k

/-- No other session has a lock on the slot, which lies in the file. -/
def Available (locks : ℕ → Option ℕ) (k : ℕ) (recordNum : ℤ) : Prop :=
  0 ≤ recordNum ∧ ∀ j, locks recordNum.toNat = some j → j = k

def Pc.inPutRecord : Pc → Bool
  | .lseek _ | .write _ => true
  | _ => false

/-- In ADD and PUT, after the lock and before its release. -/
def Pc.pastLock : Pc → Bool
  | .addModify | .lseek _ | .write _ | .unlock => true
  | _ => false

/-- One session at most is in `put_record` for a slot, and it has the lock. -/
def Exclusive (s : State) : Prop :=
  (∀ (j k : ℕ) (t u : Session), s.sessions[j]? = some t → s.sessions[k]? = some u →
    t.pc.inPutRecord = true → u.pc.inPutRecord = true → t.recordNum = u.recordNum → j = k) ∧
  ∀ (k : ℕ) (t : Session), s.sessions[k]? = some t → t.pc.inPutRecord = true →
    HoldsLock s.shared.locks k t.recordNum

/-- ADD and PUT call `lock` only for a slot that no other session has locked since they
tested it. -/
def LocksAvailable (s : State) (a : Action) : Prop :=
  ∀ (k : ℕ) (edit : Edit) (garbage : Record) (t : Session), a = .run k edit garbage →
    s.sessions[k]? = some t → t.pc = .addLock ∨ t.pc = .putLock →
    Available s.shared.locks k t.recordNum

/-! ## Locks -/

theorem getLockState_eq_true {locks : ℕ → Option ℕ} {k : ℕ} {recordNum : ℤ} :
    getLockState locks k recordNum = true ↔
      0 ≤ recordNum ∧ ∃ j, locks recordNum.toNat = some j ∧ j ≠ k := by
  unfold getLockState
  by_cases hneg : recordNum < 0
  · have hpos : ¬ 0 ≤ recordNum := by omega
    simp [hneg, hpos]
  · have hpos : 0 ≤ recordNum := by omega
    cases h : locks recordNum.toNat <;> simp [hneg, hpos]

/-- `lock` gets the lock exactly if it is available. -/
theorem lockRecord_holds_iff {locks : ℕ → Option ℕ} {k : ℕ} {recordNum : ℤ} :
    HoldsLock (lockRecord locks k recordNum) k recordNum ↔ Available locks k recordNum := by
  unfold HoldsLock Available lockRecord
  refine and_congr_right fun hpos => ?_
  by_cases hlocked : getLockState locks k recordNum = true
  · obtain ⟨_, j, hj, hjk⟩ := getLockState_eq_true.mp hlocked
    simp [hlocked, hj, hjk]
  · have hother : ∀ j, locks recordNum.toNat = some j → j = k := by
      intro j hj
      by_contra hjk
      exact hlocked (getLockState_eq_true.mpr ⟨hpos, j, hj, hjk⟩)
    have hneg : ¬ recordNum < 0 := by omega
    refine iff_of_true ?_ hother
    simp [hlocked, hneg]

/-- The session `k` changes no lock but its own and the free ones. -/
def OnlyOwn (k : ℕ) (locks locks' : ℕ → Option ℕ) : Prop :=
  ∀ m, locks' m = locks m ∨
    (locks m = none ∨ locks m = some k) ∧ (locks' m = none ∨ locks' m = some k)

theorem OnlyOwn.refl (k : ℕ) (locks : ℕ → Option ℕ) : OnlyOwn k locks locks := fun _ => .inl rfl

theorem OnlyOwn.other {k : ℕ} {locks locks' : ℕ → Option ℕ} (h : OnlyOwn k locks locks')
    {j m : ℕ} (hjk : j ≠ k) (hlock : locks m = some j) : locks' m = some j := by
  rcases h m with hsame | ⟨hfree, _⟩
  · rw [hsame, hlock]
  · rw [hlock] at hfree
    rcases hfree with hnone | hown
    · cases hnone
    · exact absurd (Option.some.inj hown) hjk

theorem OnlyOwn.new {k : ℕ} {locks locks' : ℕ → Option ℕ} (h : OnlyOwn k locks locks')
    {j m : ℕ} (hlock : locks' m = some j) : locks m = some j ∨ j = k := by
  rcases h m with hsame | ⟨_, hfree⟩
  · exact .inl (hsame ▸ hlock)
  · rw [hlock] at hfree
    rcases hfree with hnone | hown
    · cases hnone
    · exact .inr (Option.some.inj hown)

theorem onlyOwn_lockRecord (locks : ℕ → Option ℕ) (k : ℕ) (recordNum : ℤ) :
    OnlyOwn k locks (lockRecord locks k recordNum) := by
  unfold lockRecord
  split
  · exact .refl k locks
  · rename_i hfree
    rw [not_or] at hfree
    intro m
    dsimp only
    split
    · rename_i hm
      refine .inr ⟨?_, .inr rfl⟩
      cases hlock : locks m with
      | none => exact .inl rfl
      | some j =>
          right
          by_contra hjk
          refine hfree.2 (getLockState_eq_true.mpr ⟨by omega, j, hm ▸ hlock, ?_⟩)
          exact fun heq => hjk (heq ▸ rfl)
    · exact .inl rfl

theorem onlyOwn_unlockRecord (locks : ℕ → Option ℕ) (k : ℕ) (recordNum : ℤ) :
    OnlyOwn k locks (unlockRecord locks k recordNum) := by
  intro m
  unfold unlockRecord
  split
  · rename_i hown
    exact .inr ⟨.inr hown.2, .inl rfl⟩
  · exact .inl rfl

theorem onlyOwn_releaseAll (locks : ℕ → Option ℕ) (k : ℕ) :
    OnlyOwn k locks (releaseAll locks k) := by
  intro m
  unfold releaseAll
  split
  · rename_i hown
    exact .inr ⟨.inr hown, .inl rfl⟩
  · exact .inl rfl

/-! ## One step -/

/-- A command line changes nothing in the file and no lock of another session. -/
structure Dispatched (k : ℕ) (sh sh' : Shared) (t' : Session) : Prop where
  file : sh'.file = sh.file
  log : sh'.log = sh.log
  locks : OnlyOwn k sh.locks sh'.locks
  pastLock : t'.pc.pastLock = false

theorem dispatch_dispatched {k : ℕ} {line : Line} {sh sh' : Shared} {t t' : Session}
    (hpc : t.pc = .prompt) (h : dispatch k line sh t = (sh', t')) : Dispatched k sh sh' t' := by
  unfold dispatch at h
  cases hc : Command.parse line.text <;> simp only [hc] at h
  case mod =>
    split at h <;> cases h
    · exact ⟨rfl, rfl, .refl k sh.locks, by simp [Pc.pastLock, hpc]⟩
    · exact ⟨rfl, rfl, .refl k sh.locks, rfl⟩
  case quit =>
    cases h
    exact ⟨rfl, rfl, onlyOwn_releaseAll sh.locks k, rfl⟩
  case unknown =>
    cases h
    exact ⟨rfl, rfl, .refl k sh.locks, by simp [Pc.pastLock, hpc]⟩
  all_goals
    cases h
    exact ⟨rfl, rfl, .refl k sh.locks, rfl⟩

theorem sessionStep_onlyOwn {k : ℕ} {edit : Edit} {garbage : Record} {sh sh' : Shared}
    {t t' : Session} (h : sessionStep k edit garbage sh t = some (sh', t')) :
    OnlyOwn k sh.locks sh'.locks := by
  unfold sessionStep at h
  cases hpc : t.pc <;> simp only [hpc] at h
  case prompt | closed => cases h
  case addLock | modLock | putLock =>
    cases h
    exact onlyOwn_lockRecord sh.locks k t.recordNum
  case unlock =>
    cases h
    exact onlyOwn_unlockRecord sh.locks k t.recordNum
  case modUnlock same =>
    split at h <;> cases h <;> exact onlyOwn_unlockRecord sh.locks k t.recordNum
  case addScan i =>
    split at h
    · split at h <;> cases h <;> exact .refl k sh.locks
    · cases h
      exact .refl k sh.locks
  case list | addTest | modTest | getRead | putTest | lseek =>
    split at h <;> cases h <;> exact .refl k sh.locks
  all_goals
    cases h
    exact .refl k sh.locks

/-- A session past its call of `lock` has the lock if it was available then. -/
theorem sessionStep_pastLock {k : ℕ} {edit : Edit} {garbage : Record} {sh sh' : Shared}
    {t t' : Session} (h : sessionStep k edit garbage sh t = some (sh', t'))
    (hholds : t.pc.pastLock = true → HoldsLock sh.locks k t.recordNum)
    (havailable : t.pc = .addLock ∨ t.pc = .putLock → Available sh.locks k t.recordNum)
    (hpast : t'.pc.pastLock = true) : HoldsLock sh'.locks k t'.recordNum := by
  unfold sessionStep at h
  cases hpc : t.pc <;> simp only [hpc] at h hholds havailable
  case prompt | closed => cases h
  case addLock =>
    cases h
    exact lockRecord_holds_iff.mpr (havailable (.inl trivial))
  case putLock =>
    cases h
    exact lockRecord_holds_iff.mpr (havailable (.inr trivial))
  case addModify | write =>
    cases h
    exact hholds rfl
  case lseek =>
    split at h <;> cases h <;> exact hholds rfl
  case modModify =>
    cases h
    dsimp only at hpast
    split at hpast <;> cases hpast
  case addScan i =>
    split at h
    · split at h <;> cases h <;> cases hpast
    · cases h
      cases hpast
  case list | addTest | modTest | getRead | putTest | modUnlock =>
    split at h <;> cases h <;> cases hpast
  all_goals
    cases h
    cases hpast

/-! ## Runs -/

/-- Every session past its call of `lock` has the lock. -/
def PastLockHolds (s : State) : Prop :=
  ∀ (k : ℕ) (t : Session), s.sessions[k]? = some t → t.pc.pastLock = true →
    HoldsLock s.shared.locks k t.recordNum

theorem PastLockHolds.exclusive {s : State} (h : PastLockHolds s) : Exclusive s := by
  have hpast : ∀ pc : Pc, pc.inPutRecord = true → pc.pastLock = true := by
    intro pc hpc
    cases pc <;> first | rfl | cases hpc
  refine ⟨fun j k t u hj hk ht hu hsame => ?_, fun k t hk ht => h k t hk (hpast _ ht)⟩
  have hheldj := (h j t hj (hpast _ ht)).2
  have hheldk := (h k u hk (hpast _ hu)).2
  rw [hsame] at hheldj
  exact Option.some.inj (hheldj.symm.trans hheldk)

theorem Effect.pastLockHolds {s s' : State} {a : Action} (he : Effect s a s')
    (havailable : LocksAvailable s a) (h : PastLockHolds s) : PastLockHolds s' := by
  cases he with
  | start record recordSav recordNew action shared sessions =>
      unfold PastLockHolds
      rw [shared, sessions]
      exact forall_getElem?_append_singleton h nofun
  | line k line t t' action at? prompt dispatched sessions =>
      have hspec := dispatch_dispatched prompt dispatched
      unfold PastLockHolds
      rw [sessions]
      refine forall_getElem?_set (fun hpast => ?_) fun j u hjk hj hpast => ?_
      · exact absurd (hpast.symm.trans hspec.pastLock) (by decide)
      · obtain ⟨hpos, hlock⟩ := h j u hj hpast
        exact ⟨hpos, hspec.locks.other hjk hlock⟩
  | run k edit garbage t t' action at? stepped sessions =>
      unfold PastLockHolds
      rw [sessions]
      refine forall_getElem?_set (fun hpast => ?_) fun j u hjk hj hpast => ?_
      · exact sessionStep_pastLock stepped (h k t at?) (havailable k edit garbage t action at?)
          hpast
      · obtain ⟨hpos, hlock⟩ := h j u hj hpast
        exact ⟨hpos, (sessionStep_onlyOwn stepped).other hjk hlock⟩

theorem pastLockHolds_of_reaches {file : List UInt8} {s : State}
    (h : Reaches step LocksAvailable (init file) s) : PastLockHolds s :=
  h.invariant (I := PastLockHolds) (by simp [PastLockHolds, init])
    fun _ _ _ hu havailable hstep => (step_effect hstep).pastLockHolds havailable hu

/-- The call of `lock` in ADD and PUT gets the lock exactly if no other session has it, and if
this is so at every such call of a run, the writes exclude each other throughout. -/
theorem writes_exclusive_iff (file : List UInt8) (s : State) :
    (∀ (k : ℕ) (t : Session) (edit : Edit) (garbage : Record) (s' : State),
      Reaches step anything (init file) s → s.sessions[k]? = some t →
      t.pc = .addLock ∨ t.pc = .putLock → step s (.run k edit garbage) = some s' →
      (HoldsLock s'.shared.locks k t.recordNum ↔ Available s.shared.locks k t.recordNum)) ∧
    (Reaches step LocksAvailable (init file) s → Exclusive s) := by
  refine ⟨fun k t edit garbage s' _ hk hpc hstep => ?_,
    fun h => (pastLockHolds_of_reaches h).exclusive⟩
  rw [← lockRecord_holds_iff]
  rcases hpc with hpc | hpc
  · simp only [step, hk, sessionStep, hpc, Option.some.injEq] at hstep
    subst hstep
    rfl
  · simp only [step, hk, sessionStep, hpc, Option.some.injEq] at hstep
    subst hstep
    rfl

/-! ## Two sessions on one slot -/

/-- The user enters GET 0. -/
def get0 : Line := ⟨ascii ['G', 'E', 'T', ' ', '0'], by decide, by decide, by decide⟩

def put : Line := ⟨ascii ['P', 'U', 'T'], by decide, by decide, by decide⟩

/-- The session `k` takes its next step without input. -/
def go (k : ℕ) : Action := .run k noEdit Record.zero

def startSession : Action := .start Record.zero Record.zero Record.zero

theorem pc_of_go {s : State} {j k : ℕ} {pc : Pc} {edit : Edit} {garbage : Record} {t : Session}
    (h : s.sessions[k]?.map Session.pc = some pc) (ha : go k = .run j edit garbage)
    (ht : s.sessions[j]? = some t) : t.pc = pc := by
  cases ha
  rw [ht] at h
  exact Option.some.inj h

theorem locksAvailable_go {s : State} {k : ℕ} {pc : Pc}
    (h : s.sessions[k]?.map Session.pc = some pc) (hpc : pc ≠ .addLock ∧ pc ≠ .putLock) :
    LocksAvailable s (go k) := by
  intro j edit garbage t ha ht hlock
  rw [pc_of_go h ha ht] at hlock
  exact (hlock.elim hpc.1 hpc.2).elim

theorem locksAvailable_line (s : State) (k : ℕ) (line : Line) :
    LocksAvailable s (.line k line) := by
  intro j edit garbage t ha
  cases ha

theorem writes_exclusive_iff_put :
    ∃ s s', exec step (init []) [startSession, .line 0 get0, go 0, .line 0 put, go 0] = some s ∧
      step s (go 0) = some s' ∧
      (HoldsLock s'.shared.locks 0 0 ↔ Available s.shared.locks 0 0) ∧ Exclusive s' := by
  have hrun : ∃ u₁ u₂ u₃ u₄ s s', step (init []) startSession = some u₁ ∧
      step u₁ (.line 0 get0) = some u₂ ∧ step u₂ (go 0) = some u₃ ∧
      step u₃ (.line 0 put) = some u₄ ∧ step u₄ (go 0) = some s ∧ step s (go 0) = some s' ∧
      u₂.sessions[0]?.map Session.pc = some .getRead ∧
      u₄.sessions[0]?.map Session.pc = some .putTest ∧
      (s.sessions[0]?.map fun t => (t.pc, t.recordNum)) = some (.putLock, 0) ∧
      s.shared.locks 0 = none :=
    ⟨_, _, _, _, _, _, rfl, rfl, rfl, rfl, rfl, rfl, rfl, rfl, rfl, rfl⟩
  obtain ⟨u₁, u₂, u₃, u₄, s, s', h₁, h₂, h₃, h₄, hs, hs', hget, htest, hat, hfree⟩ := hrun
  obtain ⟨t, ht, hpair⟩ := Option.map_eq_some_iff.mp hat
  obtain ⟨hpc, hnum⟩ := Prod.mk.inj hpair
  have hexec : exec step (init []) [startSession, .line 0 get0, go 0, .line 0 put, go 0] =
      some s := by
    simp [exec, h₁, h₂, h₃, h₄, hs]
  have hstart : LocksAvailable (init []) startSession := by
    intro j edit garbage t ha
    cases ha
  have hlock : LocksAvailable s (go 0) := by
    intro j edit garbage u ha hu _
    cases ha
    obtain rfl := Option.some.inj (ht.symm.trans hu)
    rw [hnum]
    refine ⟨Int.le_refl 0, fun j hj => ?_⟩
    rw [Int.toNat_zero, hfree] at hj
    cases hj
  have hreach : Reaches step LocksAvailable (init []) s' :=
    .head ⟨_, hstart, h₁⟩ <| .head ⟨_, locksAvailable_line u₁ 0 get0, h₂⟩ <|
    .head ⟨_, locksAvailable_go hget (by decide), h₃⟩ <|
    .head ⟨_, locksAvailable_line u₃ 0 put, h₄⟩ <|
    .head ⟨_, locksAvailable_go htest (by decide), hs⟩ <| .single ⟨_, hlock, hs'⟩
  have hiff := (writes_exclusive_iff [] s).1 0 t noEdit Record.zero s'
    (reaches_anything_of_exec hexec) ht (.inr hpc) hs'
  rw [hnum] at hiff
  exact ⟨s, s', hexec, hs', hiff, (writes_exclusive_iff [] s').2 hreach⟩

/-- Both sessions test slot 0 before either of them locks it. -/
def bothPut : List Action :=
  [startSession, startSession, .line 0 get0, go 0, .line 1 get0, go 1, .line 0 put, .line 1 put,
    go 0, go 1, go 0, go 1]

theorem writes_not_exclusive :
    ¬ ∀ (file : List UInt8) (s : State), Reaches step anything (init file) s → Exclusive s := by
  intro hall
  have hrun : ∃ s, exec step (init []) bothPut = some s ∧
      (s.sessions[0]?.map fun t => (t.pc, t.recordNum)) = some (.lseek .put, 0) ∧
      (s.sessions[1]?.map fun t => (t.pc, t.recordNum)) = some (.lseek .put, 0) :=
    ⟨_, rfl, rfl, rfl⟩
  obtain ⟨s, hexec, h0, h1⟩ := hrun
  obtain ⟨t, ht, htpc⟩ := Option.map_eq_some_iff.mp h0
  obtain ⟨u, hu, hupc⟩ := Option.map_eq_some_iff.mp h1
  obtain ⟨htpc, htnum⟩ := Prod.mk.inj htpc
  obtain ⟨hupc, hunum⟩ := Prod.mk.inj hupc
  have hsame := (hall [] s (reaches_anything_of_exec hexec)).1 0 1 t u ht hu
    (by rw [htpc]; rfl) (by rw [hupc]; rfl) (htnum.trans hunum.symm)
  exact absurd hsame (by decide)

end OsaspLabs.Records
