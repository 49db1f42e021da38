import OsaspLabs.Lab7.Removal

/-! # The wake-ups of the consumers of LAB_7 p1

A message in the queue is accounted for by a consumer that is past its wake-up or by a
producer whose signal is still to come, for as long as a consumer waits. -/

namespace OsaspLabs.Lab7

open Runs

/-- Woken from the condition variable of `role`, without the mutex so far. -/
def Thread.woken (th : Thread) (role : Role) : Bool :=
  th.role = role && th.pc = .reacquire && !th.terminated

/-- A consumer that has the mutex and will take a message or find none, or a producer that
will signal. -/
def Thread.inHand (th : Thread) : Bool :=
  match th.role with
  | .producer => th.pc = .signal
  | .consumer => th.pc = .test || th.pc = .wait || th.pc = .access

def waiters (threads : List Thread) : ℕ := tally (fun th => (th.waitsOn .consumer).toNat) threads

/-- The messages that are accounted to the thread. -/
def Thread.share (th : Thread) : ℕ := (th.woken .consumer).toNat + th.inHand.toNat

def takers (threads : List Thread) : ℕ := tally Thread.share threads

theorem takers_eq (threads : List Thread) :
    takers threads = threads.countP (·.woken .consumer) + threads.countP (·.inHand) := by
  rw [← tally_toNat, ← tally_toNat]
  induction threads with
  | nil => rfl
  | cons th threads ih =>
      simp only [takers, tally_cons, Thread.share] at ih ⊢
      omega

structure WakeUps (s : State) : Prop where
  /-- A consumer is about to wait only if the queue is empty. -/
  empty : ∀ th ∈ s.threads, th.role = .consumer → th.pc = .wait → s.queue.messageAmount = 0
  enough : 0 < waiters s.threads → s.queue.messageAmount ≤ takers s.threads

theorem WakeUps.init (memory : MsgStruct) : WakeUps (init memory) :=
  ⟨fun _ _ _ _ => rfl, fun _ => Nat.zero_le _⟩

/-! ## One thread -/

theorem owns_of_inHand {th : Thread} (h : th.inHand = true) : th.owns = true := by
  cases hrole : th.role <;> simp only [Thread.inHand, hrole] at h
  · simp [Thread.owns, Pc.inCriticalSection, show th.pc = .signal by simpa using h]
  · simp only [Bool.or_eq_true, decide_eq_true_eq] at h
    rcases h with (hpc | hpc) | hpc <;> simp [Thread.owns, Pc.inCriticalSection, hpc]

/-- A consumer decides to wait only if the queue is empty. -/
theorem threadStep_wait {self : ℕ} {rnd : Rand} {q q' : MsgStruct} {m m' : Option ℕ}
    {th th' : Thread} (h : threadStep self rnd q m th = .next q' m' th')
    (hrole : th'.role = .consumer) (hwait : th'.pc = .wait) : q'.messageAmount = 0 := by
  obtain ⟨_, rfl, hsame, hmust⟩ := threadStep_test (.inl hwait) h
  rw [← hsame, hrole] at hmust
  simpa [mustWait, hwait] using hmust

theorem addMsg_amount {q q' : MsgStruct} {m : Msg} {n : ℕ} (h : addMsg q m = .ok (n, q')) :
    q'.messageAmount = q.messageAmount + 1 := by
  unfold addMsg at h
  split at h
  · cases h
  · split at h
    · obtain ⟨_, rfl⟩ := Prod.mk.inj (Except.ok.inj h)
      rfl
    · cases h

theorem getMsg_amount {q q' : MsgStruct} {m : Msg} {n : ℕ} (h : getMsg q = .ok (m, n, q')) :
    q'.messageAmount + 1 = q.messageAmount := by
  unfold getMsg at h
  split at h
  · cases h
  · rename_i hempty
    split at h
    · obtain ⟨_, hrest⟩ := Prod.mk.inj (Except.ok.inj h)
      obtain ⟨_, rfl⟩ := Prod.mk.inj hrest
      dsimp only
      omega
    · cases h

theorem share_eq_zero {th : Thread} (h : th.pc ∉ [.test, .wait, .access, .signal, .reacquire]) :
    th.share = 0 := by
  simp only [List.mem_cons, not_or, List.not_mem_nil] at h
  cases hrole : th.role <;> simp [Thread.share, Thread.woken, Thread.inHand, hrole, h]

theorem waitsOn_eq_false {th : Thread} {role : Role} (h : th.pc ≠ .waiting) :
    th.waitsOn role = false := by
  simp [Thread.waitsOn, h]

/-- A consumer that wakes is no waiter any more and has a message accounted to it. -/
theorem share_reacquire {th : Thread} (hpc : th.pc = .waiting) (hlive : th.terminated = false) :
    { th with pc := .reacquire }.share = (th.waitsOn .consumer).toNat := by
  cases hrole : th.role <;>
    simp [Thread.share, Thread.woken, Thread.inHand, Thread.waitsOn, hrole, hpc, hlive]

/-- What a thread adds to the queue is accounted to it, and so is what it leaves there; only
a consumer that found the queue empty starts to wait. -/
theorem threadStep_share {self : ℕ} {rnd : Rand} {q q' : MsgStruct} {m m' : Option ℕ}
    {th th' : Thread} (hlive : th.terminated = false)
    (hempty : th.role = .consumer → th.pc = .wait → q.messageAmount = 0)
    (h : threadStep self rnd q m th = .next q' m' th') :
    q'.messageAmount = 0 ∨
      q'.messageAmount + th.share ≤ q.messageAmount + th'.share ∧
        th'.waitsOn .consumer = false := by
  cases hpc : th.pc <;> simp only [threadStep, hpc] at h
  case getchar => cases h
  case waiting => cases h
  case signal => cases h
  case join tid => cases h
  case lock | infoLock | cancelWait =>
    obtain ⟨_, _, rfl⟩ := lockMutex_next h
    obtain rfl := lockMutex_queue h
    have hzero : th.share = 0 := share_eq_zero (by simp [hpc])
    exact .inr ⟨by omega, waitsOn_eq_false (by simp)⟩
  case reacquire =>
    obtain ⟨_, _, rfl⟩ := lockMutex_next h
    obtain rfl := lockMutex_queue h
    have hshare : th.share ≤ { th with pc := .test }.share := by
      cases hrole : th.role <;> simp [Thread.share, Thread.woken, Thread.inHand, hrole, hpc, hlive]
    exact .inr ⟨by omega, waitsOn_eq_false (by simp)⟩
  case test =>
    cases h
    have hshare : th.share ≤
        { th with pc := if mustWait q th.role then .wait else .access }.share := by
      cases hrole : th.role <;>
        cases hwait : mustWait q th.role <;>
          simp_all [Thread.share, Thread.woken, Thread.inHand]
    refine .inr ⟨by omega, waitsOn_eq_false ?_⟩
    dsimp only
    split <;> simp
  case wait =>
    cases h
    cases hrole : th.role with
    | consumer => exact .inl (hempty hrole hpc)
    | producer =>
        have hzero : th.share = 0 := by
          simp [Thread.share, Thread.woken, Thread.inHand, hrole, hpc]
        exact .inr ⟨by omega, by simp [Thread.waitsOn]⟩
  case access =>
    unfold access at h
    cases hrole : th.role <;> simp only [hrole] at h
    · split at h
      · cases h
      · rename_i n q₁ hadd
        cases h
        have hamount := addMsg_amount hadd
        have hbefore : th.share = 0 := by
          simp [Thread.share, Thread.woken, Thread.inHand, hrole, hpc]
        have hafter : { th with role := .producer, pc := .signal, counter := n }.share = 1 := by
          simp [Thread.share, Thread.woken, Thread.inHand]
        exact .inr ⟨by omega, waitsOn_eq_false (by simp)⟩
    · split at h
      · cases h
      · rename_i hget
        cases h
        have hamount := getMsg_amount hget
        have hbefore : th.share = 1 := by
          simp [Thread.share, Thread.woken, Thread.inHand, hrole, hpc]
        exact .inr ⟨by omega, waitsOn_eq_false (by simp)⟩
  case checkEmpty | unlock | consume | printf | sleep =>
    cases h
    have hzero : th.share = 0 := share_eq_zero (by simp [hpc])
    refine .inr ⟨by omega, waitsOn_eq_false ?_⟩
    dsimp only
    split <;> simp
  all_goals
    cases h
    have hzero : th.share = 0 := share_eq_zero (by simp [hpc])
    exact .inr ⟨by omega, waitsOn_eq_false (by simp)⟩

/-! ## One step of the program -/

theorem waiters_set {threads : List Thread} {tid : ℕ} {th : Thread}
    (h : threads[tid]? = some th) (th' : Thread) :
    waiters (threads.set tid th') + (th.waitsOn .consumer).toNat =
      waiters threads + (th'.waitsOn .consumer).toNat :=
  tally_set _ h th'

theorem takers_set {threads : List Thread} {tid : ℕ} {th : Thread}
    (h : threads[tid]? = some th) (th' : Thread) :
    takers (threads.set tid th') + th.share = takers threads + th'.share :=
  tally_set _ h th'

theorem waiters_pthreadCancel (threads : List Thread) (tid : ℕ) :
    waiters (pthreadCancel threads tid) = waiters threads := by
  refine congrArg List.sum (map_modify_eq ?_ threads tid)
  intro th
  rfl

theorem takers_pthreadCancel (threads : List Thread) (tid : ℕ) :
    takers (pthreadCancel threads tid) = takers threads := by
  refine congrArg List.sum (map_modify_eq ?_ threads tid)
  intro th
  rfl

/-- A thread moves on: it does not wait for messages, and what it takes off its account it
takes out of the queue. -/
theorem enough_set {threads : List Thread} {tid n n' : ℕ} {th th' : Thread}
    (henough : 0 < waiters threads → n ≤ takers threads) (hth : threads[tid]? = some th)
    (hwaits : th'.waitsOn .consumer = false) (hshare : n' + th.share ≤ n + th'.share)
    (hpos : 0 < waiters (threads.set tid th')) : n' ≤ takers (threads.set tid th') := by
  have hwaiters := waiters_set hth th'
  have htakers := takers_set hth th'
  rw [hwaits, Bool.toNat_false] at hwaiters
  have hbefore := henough (by omega)
  omega

/-- The message of a producer goes over from its own account to the one of the consumer that
it wakes. -/
theorem enough_signal {threads : List Thread} {tid w n : ℕ} {th v : Thread}
    (henough : 0 < waiters threads → n ≤ takers threads) (hth : threads[tid]? = some th)
    (hpc : th.pc = .signal) (hv : threads[w]? = some v)
    (hwaits : v.waitsOn th.role.signals = true)
    (hpos : 0 < waiters ((threads.set tid { th with pc := .unlock }).set w
      { v with pc := .reacquire })) :
    n ≤ takers ((threads.set tid { th with pc := .unlock }).set w { v with pc := .reacquire }) := by
  have hv' := waiter_set_signal hth hpc hv hwaits { th with pc := .unlock }
  simp only [Thread.waitsOn, Bool.and_eq_true, decide_eq_true_eq, Bool.not_eq_true'] at hwaits
  obtain ⟨⟨hrole, hwaiting⟩, hlive⟩ := hwaits
  have hdone : { th with pc := .unlock }.share = 0 := share_eq_zero (by simp)
  have hbefore : v.share = 0 := share_eq_zero (by simp [hwaiting])
  have hafter := share_reacquire hwaiting hlive
  have hhandover : th.share ≤ { v with pc := .reacquire }.share := by
    rw [hafter]
    cases hrole' : th.role <;>
      simp [Thread.share, Thread.woken, Thread.inHand, Thread.waitsOn, Role.signals, hrole', hpc,
        hrole, hwaiting, hlive]
  rcases Nat.lt_or_ge n th.share with hnone | hsome
  · have hone : th.share ≤ 1 := hhandover.trans (hafter ▸ Bool.toNat_le _)
    omega
  · refine enough_set (n := n - th.share) (fun hpos => ?_) hv' (waitsOn_eq_false (by simp))
      (by omega) hpos
    exact enough_set henough hth (waitsOn_eq_false (by simp)) (by omega) hpos

/-- Whatever a step adds to the queue is accounted to a thread, for as long as a consumer
waits. -/
theorem Effect.enough {s s' : State} {a : Action} (he : Effect s a s') (hw : WakeUps s)
    (hpos : 0 < waiters s'.threads) : s'.queue.messageAmount ≤ takers s'.threads := by
  have henough := hw.enough
  cases he with
  | work tid rnd th q m th' action at? live next queue mutex threads =>
      rw [threads] at hpos ⊢
      rw [queue]
      rcases threadStep_share live (hw.empty th (List.mem_of_getElem? at?)) next with
        hzero | ⟨hshare, hwaits⟩
      · omega
      · exact enough_set henough at? hwaits hshare hpos
  | exit queue mutex threads =>
      rw [threads] at hpos ⊢
      rw [queue]
      exact henough hpos
  | signal tid th at? pc live queue mutex threads =>
      rw [queue]
      rcases threads with ⟨hnone, threads⟩ | ⟨w, v, hv, hwaits, threads⟩
      · rw [threads] at hpos ⊢
        have hself : th.waitsOn .consumer = false := waitsOn_eq_false (by simp [pc])
        have hunlock : { th with pc := .unlock }.waitsOn .consumer = false :=
          waitsOn_eq_false (by simp)
        have hdone : { th with pc := .unlock }.share = 0 := share_eq_zero (by simp)
        by_cases hrole : th.role = .producer
        · -- a producer that wakes nobody saw no waiting consumer
          have hwaiters := waiters_set at? { th with pc := .unlock }
          rw [hself, hunlock] at hwaiters
          obtain ⟨v, hv, hvpos⟩ := exists_pos_of_tally_pos
            (show 0 < waiters s.threads by omega)
          simp only [Role.signals, hrole] at hnone
          simp [hnone v hv] at hvpos
        · have hbefore : th.share = 0 := by
            cases hconsumer : th.role <;>
              simp_all [Thread.share, Thread.woken, Thread.inHand]
          exact enough_set henough at? hunlock (by omega) hpos
      · rw [threads] at hpos ⊢
        exact enough_signal henough at? pc hv hwaits hpos
  | wake tid th at? pc live queue mutex threads =>
      rw [threads] at hpos ⊢
      rw [queue]
      have hbefore : th.share = 0 := share_eq_zero (by simp [pc])
      exact enough_set henough at? (waitsOn_eq_false (by simp)) (by omega) hpos
  | cancelWait tid th action at? pc live queue mutex threads =>
      rw [threads] at hpos ⊢
      rw [queue]
      have hbefore : th.share = 0 := share_eq_zero (by simp [pc])
      exact enough_set henough at? (waitsOn_eq_false (by simp)) (by omega) hpos
  | terminate tid th at? point pc live queue mutex threads =>
      have hbefore : th.share = 0 := by
        refine share_eq_zero fun hmem => ?_
        simp only [List.mem_cons, List.not_mem_nil, or_false] at hmem
        rcases hmem with hpc | hpc | hpc | hpc | hpc <;> simp [hpc, cancellationPoint] at point
      rw [threads] at hpos ⊢
      rw [queue]
      exact enough_set henough at? (by simp [Thread.waitsOn]) (by omega) hpos
  | create th start live queue mutex threads =>
      have hnew : th.waitsOn .consumer = false ∧ th.share = 0 := by
        rcases start with hpc | hpc <;>
          exact ⟨waitsOn_eq_false (by simp [hpc]), share_eq_zero (by simp [hpc])⟩
      rw [threads] at hpos ⊢
      rw [queue]
      simp only [waiters, takers, tally_append, tally_cons, tally_nil, hnew,
        Bool.toNat_false] at hpos henough ⊢
      omega
  | main th th' at? pc pc' live queue mutex threads =>
      have hbefore : th.share = 0 := by
        rcases pc with hpc | ⟨tid, hpc⟩ <;> exact share_eq_zero (by simp [hpc])
      have hafter : th'.waitsOn .consumer = false := by
        refine waitsOn_eq_false fun hpc => ?_
        rcases pc' with hmem | ⟨tid, hjoin⟩
        · simp [hpc] at hmem
        · simp [hjoin] at hpc
      rw [queue]
      rcases threads with threads | ⟨tid, threads⟩
      · rw [threads] at hpos ⊢
        exact enough_set henough at? hafter (by omega) hpos
      · rw [threads, waiters_pthreadCancel] at hpos
        rw [threads, takers_pthreadCancel]
        exact enough_set henough at? hafter (by omega) hpos
  | refuse same => exact same ▸ henough (same ▸ hpos)

theorem WakeUps.step {s s' : State} {a : Action} (hw : WakeUps s) (ho : Owned s)
    (he : Effect s a s') : WakeUps s' :=
  ⟨he.protects (.inl rfl) ho (P := fun q => q.messageAmount = 0) hw.empty fun _ _ next =>
    threadStep_wait next, he.enough hw⟩

theorem wakeUps_of_reaches {allowed : State → Action → Prop} {memory : MsgStruct} {s : State}
    (h : Reaches Lab7.step allowed (Lab7.init memory) s) : Owned s ∧ WakeUps s :=
  h.invariant (I := fun u => Owned u ∧ WakeUps u) ⟨Owned.init memory, WakeUps.init memory⟩
    fun _ _ _ hu _ hstep => ⟨hu.1.step (step_effect hstep), hu.2.step hu.1 (step_effect hstep)⟩

/-- With the mutex free nobody has a message in hand. -/
theorem Owned.countP_inHand {s : State} (ho : Owned s) (hmutex : s.mutex = none) :
    s.threads.countP (·.inHand) = 0 := by
  refine List.countP_eq_zero.mpr fun th hmem hhand => ?_
  obtain ⟨tid, hth⟩ := List.mem_iff_getElem?.mp hmem
  have howner := (ho.owner tid).mpr (by simp [hth, owns_of_inHand hhand])
  exact nomatch hmutex.symm.trans howner

/-- While the mutex is free and a consumer waits, each message in the queue has a consumer on
its way to it. -/
theorem no_lost_wakeUp (memory : MsgStruct) (s : State)
    (h : Reaches Lab7.step anything (Lab7.init memory) s) (hmutex : s.mutex = none)
    (hwait : ∃ th ∈ s.threads, th.waitsOn .consumer = true) :
    s.queue.messageAmount ≤ s.threads.countP (·.woken .consumer) := by
  obtain ⟨ho, hw⟩ := wakeUps_of_reaches h
  obtain ⟨th, hmem, hth⟩ := hwait
  have hpos : 0 < waiters s.threads := by
    rw [waiters, tally_toNat]
    exact List.countP_pos_iff.mpr ⟨th, hmem, hth⟩
  have henough := hw.enough hpos
  rw [takers_eq, ho.countP_inHand hmutex, Nat.add_zero] at henough
  exact henough

/-- Two consumers wait, and the user's '+' wakes the first of them. -/
def plusWakesOne : List Action :=
  [.command (.createConsumer Msg.zero 0), .command (.createConsumer Msg.zero 0)] ++
    List.replicate 3 (.run 1 noRand) ++ List.replicate 3 (.run 2 noRand) ++
    .command .plus :: List.replicate 4 (.run 0 noRand) ++ [.signal 0 (some 1), .run 0 noRand]

theorem no_lost_wakeUp_plus :
    ∃ s, exec Lab7.step (Lab7.init zeroMemory) plusWakesOne = some s ∧
      s.queue.messageAmount = 1 ∧ s.queue.messageAmount ≤ s.threads.countP (·.woken .consumer) := by
  have hrun : ∃ s, exec Lab7.step (Lab7.init zeroMemory) plusWakesOne = some s ∧
      s.mutex = none ∧ s.queue.messageAmount = 1 ∧
      (s.threads[2]?.map fun th => th.waitsOn .consumer) = some true :=
    ⟨_, rfl, rfl, rfl, rfl⟩
  obtain ⟨s, hexec, hmutex, hamount, hwaits⟩ := hrun
  obtain ⟨th, hth, hwait⟩ := Option.map_eq_some_iff.mp hwaits
  exact ⟨s, hexec, hamount, no_lost_wakeUp zeroMemory s (reaches_anything_of_exec hexec) hmutex
    ⟨th, List.mem_of_getElem? hth, hwait⟩⟩

end OsaspLabs.Lab7
