import OsaspLabs.Lab7.Threads
import OsaspLabs.Library.Tally

/-! # Who owns the mutex of LAB_7 p1

A thread that is cancelled in `pthread_cond_wait` terminates as the owner of the mutex:
there is no cleanup handler that would drop it. -/

namespace OsaspLabs.Lab7

open Runs

/-- Between taking and dropping the mutex. -/
def Pc.inCriticalSection : Pc → Bool
  | .test | .wait | .access | .signal | .unlock | .infoPrintf | .infoUnlock => true
  | _ => false

/-- Whether the thread owns the mutex, by where it is or where it died. -/
def Thread.owns (th : Thread) : Bool :=
  th.pc.inCriticalSection || (th.terminated && th.pc = .cancelWait)

theorem owns_of_live {th : Thread} (h : th.terminated = false) :
    th.owns = th.pc.inCriticalSection := by
  simp [Thread.owns, h]

theorem lockMutex_next {self : ℕ} {q q' : MsgStruct} {m m' : Option ℕ} {th th' : Thread}
    (h : lockMutex self q m th = .next q' m' th') : m = none ∧ m' = some self ∧ th' = th := by
  cases m with
  | none => cases h; exact ⟨rfl, rfl, rfl⟩
  | some u => cases h

theorem access_next {q q' : MsgStruct} {m m' : Option ℕ} {th th' : Thread}
    (h : access q m th = .next q' m' th') :
    m' = m ∧ th'.pc = .signal ∧ th'.terminated = th.terminated := by
  unfold access at h
  split at h
  · split at h
    · cases h
    · cases h
      exact ⟨rfl, rfl, rfl⟩
  · split at h
    · cases h
    · cases h
      exact ⟨rfl, rfl, rfl⟩

theorem threadStep_handover {self : ℕ} {rnd : Rand} {q q' : MsgStruct} {m m' : Option ℕ}
    {th th' : Thread} (hlive : th.terminated = false)
    (h : threadStep self rnd q m th = .next q' m' th') :
    Lock.Handover self m th.owns m' th'.owns ∧
      (th'.terminated = true → th.pc = .cancelWait ∧ th'.pc = .cancelWait) := by
  rw [owns_of_live hlive]
  cases hpc : th.pc <;> simp only [threadStep, hpc] at h
  case getchar => cases h
  case waiting => cases h
  case signal => cases h
  case join tid => cases h
  case lock | reacquire | infoLock =>
    obtain ⟨rfl, rfl, rfl⟩ := lockMutex_next h
    exact ⟨.take rfl rfl (by simp [Thread.owns, Pc.inCriticalSection]), by simp [hlive]⟩
  case cancelWait =>
    obtain ⟨rfl, rfl, rfl⟩ := lockMutex_next h
    exact ⟨.take rfl rfl (by simp [Thread.owns]), fun _ => ⟨rfl, rfl⟩⟩
  case wait | infoUnlock =>
    cases h
    exact ⟨.drop rfl rfl (by simp [Thread.owns, Pc.inCriticalSection, hlive]), by simp [hlive]⟩
  case unlock =>
    cases h
    refine ⟨.drop rfl rfl ?_, by simp [hlive]⟩
    cases th.role <;> simp [Thread.owns, Pc.inCriticalSection, hlive]
  case access =>
    obtain ⟨rfl, hpc', hterm⟩ := access_next h
    exact ⟨.keep rfl (by simp [Thread.owns, hpc', Pc.inCriticalSection]), by simp [hterm, hlive]⟩
  case test =>
    cases h
    refine ⟨.keep rfl ?_, by simp [hlive]⟩
    cases mustWait q th.role <;> simp [Thread.owns, Pc.inCriticalSection]
  all_goals
    cases h
    refine ⟨.keep rfl ?_, by simp [hlive]⟩
    simp only [Thread.owns, hlive]
    first
      | rfl
      | (split <;> rfl)

theorem ownedBy_set {threads : List Thread} {tid : ℕ} {m m' : Option ℕ} {th th' : Thread}
    (h : Lock.OwnedBy m (threads.map Thread.owns)) (hth : threads[tid]? = some th)
    (hand : Lock.Handover tid m th.owns m' th'.owns) :
    Lock.OwnedBy m' ((threads.set tid th').map Thread.owns) := by
  rw [List.map_set]
  exact h.handover (by simp [hth]) hand

theorem owns_pthreadCancel (threads : List Thread) (tid : ℕ) :
    (pthreadCancel threads tid).map Thread.owns = threads.map Thread.owns := by
  apply map_modify_eq
  intro th
  rfl

/-- A terminated thread stands where it was cancelled. -/
def Thread.stopped (th : Thread) : Prop :=
  th.terminated = true → th.pc = .cancelWait ∨ cancellationPoint th.pc = true

structure Owned (s : State) : Prop where
  owner : Lock.OwnedBy s.mutex (s.threads.map Thread.owns)
  stopped : ∀ th ∈ s.threads, th.stopped

theorem Owned.init (memory : MsgStruct) : Owned (init memory) := by
  refine ⟨fun tid => ?_, ?_⟩
  · rcases tid with _ | tid <;> simp [Lab7.init, Thread.owns, Pc.inCriticalSection]
  · simp [Lab7.init, Thread.stopped]

/-- Every terminated thread stopped where a cancellation let it. -/
theorem Effect.stopped {s s' : State} {a : Action} (he : Effect s a s')
    (hs : ∀ th ∈ s.threads, th.stopped) : ∀ th ∈ s'.threads, th.stopped := by
  cases he with
  | work tid rnd th q m th' action at? live next queue mutex threads =>
      obtain ⟨_, hdead⟩ := threadStep_handover live next
      rw [threads]
      exact forall_mem_set hs fun hterm => .inl (hdead hterm).2
  | exit queue mutex threads => exact threads ▸ hs
  | signal tid th at? pc live queue mutex threads =>
      have hset : ∀ v ∈ s.threads.set tid { th with pc := .unlock }, v.stopped :=
        forall_mem_set hs fun hterm => by simp [live] at hterm
      rcases threads with ⟨_, threads⟩ | ⟨w, v, hv, hwaits, threads⟩
      · exact threads ▸ hset
      · rw [threads]
        refine forall_mem_set hset fun hterm => ?_
        simp [Thread.waitsOn, show v.terminated = true from hterm] at hwaits
  | wake tid th at? pc live queue mutex threads =>
      rw [threads]
      exact forall_mem_set hs fun hterm => by simp [live] at hterm
  | cancelWait tid th action at? pc live queue mutex threads =>
      rw [threads]
      exact forall_mem_set hs fun _ => .inl rfl
  | terminate tid th at? point pc live queue mutex threads =>
      rw [threads]
      exact forall_mem_set hs fun _ => .inr point
  | create th start live queue mutex threads =>
      rw [threads]
      exact List.forall_mem_append.mpr ⟨hs, by simp [Thread.stopped, live]⟩
  | main th th' at? pc pc' live queue mutex threads =>
      have hterm : th.terminated = false := by
        have hstop := hs th (List.mem_of_getElem? at?)
        cases hterm : th.terminated <;> rcases pc with hpc | ⟨tid, hpc⟩ <;>
          simp_all [Thread.stopped, cancellationPoint]
      have hset : ∀ v ∈ s.threads.set 0 th', v.stopped :=
        forall_mem_set hs fun hterm' => by simp [live, hterm] at hterm'
      rcases threads with threads | ⟨tid, threads⟩
      · exact threads ▸ hset
      · rw [threads]
        exact forall_mem_modify hset fun _ _ hv => hv
  | refuse same => exact same ▸ hs

/-- The thread that signals is not the waiter that it wakes. -/
theorem waiter_set_signal {threads : List Thread} {tid w : ℕ} {th v : Thread} {role : Role}
    (hth : threads[tid]? = some th) (hpc : th.pc = .signal) (hv : threads[w]? = some v)
    (hwaits : v.waitsOn role = true) (th' : Thread) : (threads.set tid th')[w]? = some v := by
  simp only [Thread.waitsOn, Bool.and_eq_true, decide_eq_true_eq] at hwaits
  have hne : tid ≠ w := by
    rintro rfl
    obtain rfl := Option.some.inj (hth.symm.trans hv)
    exact absurd (hpc.symm.trans hwaits.1.2) (by decide)
  rw [List.getElem?_set_ne hne, hv]

/-- The owner of the mutex is the thread that its place says is the owner. -/
theorem Effect.owner {s s' : State} {a : Action} (he : Effect s a s')
    (ho : Lock.OwnedBy s.mutex (s.threads.map Thread.owns)) :
    Lock.OwnedBy s'.mutex (s'.threads.map Thread.owns) := by
  cases he with
  | work tid rnd th q m th' action at? live next queue mutex threads =>
      obtain ⟨hand, _⟩ := threadStep_handover live next
      rw [mutex, threads]
      exact ownedBy_set ho at? hand
  | exit queue mutex threads =>
      rw [mutex, threads]
      exact ho
  | signal tid th at? pc live queue mutex threads =>
      have hkeep : ({ th with pc := .unlock } : Thread).owns = th.owns := by
        simp [Thread.owns, pc, Pc.inCriticalSection]
      have hset := ownedBy_set ho at? (.keep rfl hkeep)
      rcases threads with ⟨_, threads⟩ | ⟨w, v, hv, hwaits, threads⟩
      · rw [mutex, threads]
        exact hset
      · have hv' := waiter_set_signal at? pc hv hwaits { th with pc := .unlock }
        simp only [Thread.waitsOn, Bool.and_eq_true, decide_eq_true_eq, Bool.not_eq_true']
          at hwaits
        have hwoken : ({ v with pc := .reacquire } : Thread).owns = v.owns := by
          simp [Thread.owns, hwaits, Pc.inCriticalSection]
        rw [mutex, threads]
        exact ownedBy_set hset hv' (.keep rfl hwoken)
  | wake tid th at? pc live queue mutex threads =>
      have hkeep : ({ th with pc := .reacquire } : Thread).owns = th.owns := by
        simp [Thread.owns, pc, live, Pc.inCriticalSection]
      rw [mutex, threads]
      exact ownedBy_set ho at? (.keep rfl hkeep)
  | cancelWait tid th action at? pc live queue mutex threads =>
      have hkeep : ({ th with pc := .cancelWait } : Thread).owns = th.owns := by
        simp [Thread.owns, pc, live, Pc.inCriticalSection]
      rw [mutex, threads]
      exact ownedBy_set ho at? (.keep rfl hkeep)
  | terminate tid th at? point pc live queue mutex threads =>
      have hkeep : ({ th with terminated := true } : Thread).owns = th.owns := by
        cases hpc : th.pc <;> simp_all [Thread.owns, cancellationPoint, Pc.inCriticalSection]
      rw [mutex, threads]
      exact ownedBy_set ho at? (.keep rfl hkeep)
  | create th start live queue mutex threads =>
      have hfree : th.owns = false := by
        rcases start with hpc | hpc <;> simp [Thread.owns, hpc, Pc.inCriticalSection]
      rw [mutex, threads, List.map_append, List.map_singleton, hfree]
      exact ho.append
  | main th th' at? pc pc' live queue mutex threads =>
      have hbefore : th.owns = false := by
        rcases pc with hpc | ⟨tid, hpc⟩ <;> simp [Thread.owns, hpc, Pc.inCriticalSection]
      have hafter : th'.owns = false := by
        rcases pc' with hpc | ⟨tid, hpc⟩
        · simp only [List.mem_cons, List.not_mem_nil, or_false] at hpc
          rcases hpc with hpc | hpc | hpc | hpc <;>
            simp [Thread.owns, hpc, Pc.inCriticalSection]
        · simp [Thread.owns, hpc, Pc.inCriticalSection]
      have hset := ownedBy_set ho at? (.keep rfl (hafter.trans hbefore.symm))
      rcases threads with threads | ⟨tid, threads⟩
      · rw [mutex, threads]
        exact hset
      · rw [mutex, threads, owns_pthreadCancel]
        exact hset
  | refuse same => exact same ▸ ho

theorem Owned.step {s s' : State} {a : Action} (ho : Owned s) (he : Effect s a s') :
    Owned s' :=
  ⟨he.owner ho.owner, he.stopped ho.stopped⟩

theorem owned_of_reaches {allowed : State → Action → Prop} {memory : MsgStruct} {s : State}
    (h : Reaches step allowed (init memory) s) : Owned s :=
  h.invariant (Owned.init memory) fun _ _ _ hu _ hstep => hu.step (step_effect hstep)

/-! ## What the mutex protects -/

theorem lockMutex_queue {self : ℕ} {q q' : MsgStruct} {m m' : Option ℕ} {th th' : Thread}
    (h : lockMutex self q m th = .next q' m' th') : q' = q := by
  unfold lockMutex at h
  split at h
  · cases h
  · cases h
    rfl

/-- Only the owner of the mutex changes the queue. -/
theorem threadStep_queue {self : ℕ} {rnd : Rand} {q q' : MsgStruct} {m m' : Option ℕ}
    {th th' : Thread} (h : threadStep self rnd q m th = .next q' m' th') :
    q' = q ∨ th.owns = true := by
  cases hpc : th.pc <;> simp only [threadStep, hpc] at h
  case getchar => cases h
  case waiting => cases h
  case signal => cases h
  case join tid => cases h
  case lock | reacquire | infoLock | cancelWait => exact .inl (lockMutex_queue h)
  case access => exact .inr (by simp [Thread.owns, hpc, Pc.inCriticalSection])
  all_goals
    cases h
    exact .inl rfl

/-- The test of the wait loop is the only way to its body and out of it. -/
theorem threadStep_test {self : ℕ} {rnd : Rand} {q q' : MsgStruct} {m m' : Option ℕ}
    {th th' : Thread} (hpc' : th'.pc = .wait ∨ th'.pc = .access)
    (h : threadStep self rnd q m th = .next q' m' th') :
    th.pc = .test ∧ q' = q ∧ th'.role = th.role ∧
      (mustWait q th.role = true ↔ th'.pc = .wait) := by
  cases hpc : th.pc <;> simp only [threadStep, hpc] at h
  case getchar => cases h
  case waiting => cases h
  case signal => cases h
  case join tid => cases h
  case lock | reacquire | infoLock | cancelWait =>
    obtain ⟨_, _, rfl⟩ := lockMutex_next h
    simp at hpc'
  case access =>
    obtain ⟨_, hsignal, _⟩ := access_next h
    simp [hsignal] at hpc'
  case test =>
    cases h
    refine ⟨rfl, rfl, rfl, ?_⟩
    cases mustWait q th.role <;> simp
  case checkEmpty | unlock | consume | printf | sleep =>
    cases h
    dsimp only at hpc'
    split at hpc' <;> simp at hpc'
  all_goals
    cases h
    simp at hpc'

/-- What a thread found at the test of its wait loop stays true for as long as it keeps the
mutex. -/
theorem Effect.protects {s s' : State} {a : Action} {role : Role} {pc : Pc}
    {P : MsgStruct → Prop} (he : Effect s a s') (hpc : pc = .wait ∨ pc = .access) (ho : Owned s)
    (hp : ∀ th ∈ s.threads, th.role = role → th.pc = pc → P s.queue)
    (htest : ∀ {tid rnd th q m th'}, a = .run tid rnd → s.threads[tid]? = some th →
      threadStep tid rnd s.queue s.mutex th = .next q m th' → th'.role = role → th'.pc = pc →
      P q) :
    ∀ th ∈ s'.threads, th.role = role → th.pc = pc → P s'.queue := by
  have hcritical : pc.inCriticalSection = true := by rcases hpc with rfl | rfl <;> rfl
  cases he with
  | work tid rnd th q m th' action at? live next queue mutex threads =>
      rw [queue, threads]
      intro v hv hrole hvpc
      obtain ⟨j, hj⟩ := List.mem_iff_getElem?.mp hv
      by_cases hne : tid = j
      · subst hne
        obtain ⟨hlt, _⟩ := List.getElem?_eq_some_iff.mp at?
        rw [List.getElem?_set_self hlt] at hj
        obtain rfl := Option.some.inj hj
        exact htest action at? next hrole hvpc
      · rw [List.getElem?_set_ne hne] at hj
        rcases threadStep_queue next with rfl | howns
        · exact hp v (List.mem_of_getElem? hj) hrole hvpc
        · have hself := (ho.owner tid).mpr (by simp [at?, howns])
          have hother := (ho.owner j).mpr (by simp [hj, Thread.owns, hvpc, hcritical])
          exact absurd (Option.some.inj (hself.symm.trans hother)) hne
  | exit queue mutex threads => rw [queue, threads]; exact hp
  | signal tid th at? hth live queue mutex threads =>
      have hset := forall_mem_set (i := tid) (a := { th with pc := .unlock }) hp
        (by rcases hpc with rfl | rfl <;> simp)
      rw [queue]
      rcases threads with ⟨_, threads⟩ | ⟨w, v, hv, hwaits, threads⟩
      · exact threads ▸ hset
      · exact threads ▸ forall_mem_set hset (by rcases hpc with rfl | rfl <;> simp)
  | wake tid th at? hth live queue mutex threads =>
      rw [queue, threads]
      exact forall_mem_set hp (by rcases hpc with rfl | rfl <;> simp)
  | cancelWait tid th action at? hth live queue mutex threads =>
      rw [queue, threads]
      exact forall_mem_set hp (by rcases hpc with rfl | rfl <;> simp)
  | terminate tid th at? point hth live queue mutex threads =>
      rw [queue, threads]
      exact forall_mem_set hp (hp th (List.mem_of_getElem? at?))
  | create th start live queue mutex threads =>
      rw [queue, threads]
      refine List.forall_mem_append.mpr ⟨hp, ?_⟩
      rcases start with hth | hth <;> rcases hpc with rfl | rfl <;> simp [hth]
  | main th th' at? hth hth' live queue mutex threads =>
      have hset := forall_mem_set (i := 0) (a := th') hp fun _ hat => by
        rcases hth' with hmem | ⟨tid, hjoin⟩
        · rcases hpc with rfl | rfl <;> simp [hat] at hmem
        · rcases hpc with rfl | rfl <;> simp [hjoin] at hat
      rw [queue]
      rcases threads with threads | ⟨tid, threads⟩
      · exact threads ▸ hset
      · exact threads ▸ forall_mem_modify hset fun _ _ hv => hv
  | refuse same => exact same ▸ hp

/-- A consumer comes to `get_msg` with a message in the queue. -/
theorem stocked_of_reaches {allowed : State → Action → Prop} {memory : MsgStruct} {s : State}
    (h : Reaches step allowed (init memory) s) :
    ∀ th ∈ s.threads, th.role = .consumer → th.pc = .access → s.queue.messageAmount ≠ 0 := by
  have hinv := h.invariant (I := fun u => Owned u ∧ ∀ th ∈ u.threads, th.role = .consumer →
    th.pc = .access → u.queue.messageAmount ≠ 0) ⟨Owned.init memory, by simp [init]⟩ ?_
  · exact hinv.2
  · rintro u a v ⟨ho, hsome⟩ _ hstep
    have he := step_effect hstep
    refine ⟨ho.step he, ?_⟩
    refine he.protects (.inr rfl) ho (P := fun q => q.messageAmount ≠ 0) hsome ?_
    intro tid rnd th q m th' _ _ hnext hrole hpc
    obtain ⟨-, rfl, hsame, htest⟩ := threadStep_test (.inr hpc) hnext
    have hmust : mustWait u.queue .consumer ≠ true := by
      rw [hpc, hsame.symm.trans hrole] at htest
      exact fun hmust => Pc.noConfusion (htest.mp hmust)
    exact fun hzero => hmust (decide_eq_true hzero)

theorem threadStep_pc_ne_cancelWait {self : ℕ} {rnd : Rand} {q q' : MsgStruct}
    {m m' : Option ℕ} {th th' : Thread} (hpc : th.pc ≠ .cancelWait)
    (h : threadStep self rnd q m th = .next q' m' th') : th'.pc ≠ .cancelWait := by
  cases hat : th.pc <;> simp only [threadStep, hat] at h
  case cancelWait => exact absurd hat hpc
  case getchar => cases h
  case waiting => cases h
  case signal => cases h
  case join tid => cases h
  case lock | reacquire | infoLock =>
    obtain ⟨_, _, rfl⟩ := lockMutex_next h
    simp
  case access =>
    obtain ⟨_, hpc', _⟩ := access_next h
    simp [hpc']
  case checkEmpty | test | unlock | consume | printf | sleep =>
    cases h
    dsimp only
    split <;> simp
  all_goals
    cases h
    simp

/-- The thread `tid` has terminated. -/
def Dead (threads : List Thread) (tid : ℕ) : Prop :=
  ∃ th, threads[tid]? = some th ∧ th.terminated = true

theorem Dead.set {threads : List Thread} {tid i : ℕ} {v v' : Thread} (h : Dead threads tid)
    (hi : threads[i]? = some v) (hkeep : v.terminated = true → v'.terminated = true) :
    Dead (threads.set i v') tid := by
  obtain ⟨th, hth, hterm⟩ := h
  by_cases hne : i = tid
  · subst hne
    obtain rfl := Option.some.inj (hi.symm.trans hth)
    obtain ⟨hlt, _⟩ := List.getElem?_eq_some_iff.mp hi
    exact ⟨v', by simp [hlt], hkeep hterm⟩
  · exact ⟨th, by rw [List.getElem?_set_ne hne, hth], hterm⟩

theorem Dead.pthreadCancel {threads : List Thread} {tid : ℕ} (h : Dead threads tid) (i : ℕ) :
    Dead (pthreadCancel threads i) tid := by
  obtain ⟨th, hth, hterm⟩ := h
  by_cases hi : i = tid <;> simp [Dead, Lab7.pthreadCancel, hth, hi, hterm]

/-- No other thread can take or drop the mutex of a terminated owner. -/
theorem Effect.dead_owner {s s' : State} {a : Action} {tid : ℕ} (he : Effect s a s')
    (ho : Owned s) (hmutex : s.mutex = some tid) (hdead : Dead s.threads tid) :
    s'.mutex = some tid ∧ Dead s'.threads tid := by
  cases he with
  | work i rnd v q m v' action at? live next queue mutex threads =>
      refine ⟨?_, threads ▸ hdead.set at? (by simp [live])⟩
      obtain ⟨hand, _⟩ := threadStep_handover live next
      cases hand with
      | keep same _ => rw [mutex, same, hmutex]
      | take free _ _ => exact absurd (hmutex.symm.trans free) (by simp)
      | drop owner _ _ =>
          have hown := (ho.owner i).mpr (by simp [at?, owner])
          obtain rfl := Option.some.inj (hmutex.symm.trans hown)
          obtain ⟨th, hth, hterm⟩ := hdead
          obtain rfl := Option.some.inj (at?.symm.trans hth)
          exact absurd (hterm.symm.trans live) (by decide)
  | exit queue mutex threads => exact ⟨mutex.trans hmutex, threads ▸ hdead⟩
  | signal i v at? pc live queue mutex threads =>
      refine ⟨mutex.trans hmutex, ?_⟩
      have hset : Dead (s.threads.set i { v with pc := .unlock }) tid :=
        hdead.set at? (by simp [live])
      rcases threads with ⟨_, threads⟩ | ⟨w, u, hu, hwaits, threads⟩
      · exact threads ▸ hset
      · rw [threads]
        by_cases hiw : i = w
        · subst hiw
          obtain rfl := Option.some.inj (at?.symm.trans hu)
          rw [List.set_set]
          exact hdead.set at? (by simp [live])
        · have hu' : (s.threads.set i { v with pc := .unlock })[w]? = some u := by
            rw [List.getElem?_set_ne hiw, hu]
          exact hset.set hu' id
  | wake i v at? pc live queue mutex threads =>
      exact ⟨mutex.trans hmutex, threads ▸ hdead.set at? id⟩
  | cancelWait i v action at? pc live queue mutex threads =>
      exact ⟨mutex.trans hmutex, threads ▸ hdead.set at? id⟩
  | terminate i v at? point pc live queue mutex threads =>
      exact ⟨mutex.trans hmutex, threads ▸ hdead.set at? fun _ => rfl⟩
  | create v start live queue mutex threads =>
      obtain ⟨th, hth, hterm⟩ := hdead
      obtain ⟨hlt, _⟩ := List.getElem?_eq_some_iff.mp hth
      refine ⟨mutex.trans hmutex, th, ?_, hterm⟩
      rw [threads, List.getElem?_append_left hlt, hth]
  | main v v' at? pc pc' live queue mutex threads =>
      have hset : Dead (s.threads.set 0 v') tid := hdead.set at? (by simp [live])
      rcases threads with threads | ⟨i, threads⟩
      · exact ⟨mutex.trans hmutex, threads ▸ hset⟩
      · exact ⟨mutex.trans hmutex, threads ▸ hset.pthreadCancel i⟩
  | refuse same => exact same ▸ ⟨hmutex, hdead⟩

/-! ## Removal -/

/-- No terminated thread owns the mutex. -/
def MutexSafe (s : State) : Prop :=
  ∀ (tid : ℕ) (th : Thread), s.mutex = some tid → s.threads[tid]? = some th →
    th.terminated = false

/-- No thread has died of a cancellation in `pthread_cond_wait`. -/
def NoneDiedWaiting (s : State) : Prop :=
  ∀ th ∈ s.threads, th.terminated = true → th.pc ≠ .cancelWait

/-- No thread acts on its cancellation while it is blocked in `pthread_cond_wait`. -/
def OutsideWait (s : State) (a : Action) : Prop :=
  ∀ (tid : ℕ) (th : Thread), a = .cancelled tid → s.threads[tid]? = some th →
    th.pc ≠ .waiting

/-- No `add_msg` finds `MSG_MAX - 1` messages, where it prints and exits with the mutex held, and
none writes behind `buffer`. -/
def FindsRoom (s : State) (a : Action) : Prop :=
  ∀ (tid : ℕ) (rnd : Rand) (th : Thread), a = .run tid rnd → s.threads[tid]? = some th →
    th.role = .producer → th.pc = .access →
      s.queue.messageAmount ≠ msgMax - 1 ∧ s.queue.head < msgMax

instance (s : State) : DecidablePred (OutsideWait s)
  | .cancelled tid =>
      decidable_of_iff (∀ th ∈ s.threads[tid]?, th.pc ≠ .waiting)
        ⟨fun h _ th heq hth => by cases heq; exact h th hth, fun h th hth => h tid th rfl hth⟩
  | .run _ _ | .signal _ _ | .wake _ | .joined | .command _ => isTrue fun _ _ h => by cases h

instance (s : State) : DecidablePred (FindsRoom s)
  | .run tid rnd =>
      decidable_of_iff (∀ th ∈ s.threads[tid]?, th.role = .producer → th.pc = .access →
          s.queue.messageAmount ≠ msgMax - 1 ∧ s.queue.head < msgMax)
        ⟨fun h _ _ th heq hth => by cases heq; exact h th hth,
          fun h th hth => h tid rnd th rfl hth⟩
  | .signal _ _ | .wake _ | .cancelled _ | .joined | .command _ =>
      isTrue fun _ _ _ h => by cases h

theorem Owned.mutexSafe_iff {s : State} (ho : Owned s) :
    MutexSafe s ↔ NoneDiedWaiting s := by
  constructor
  · intro hsafe th hmem hterm hpc
    obtain ⟨tid, hth⟩ := List.mem_iff_getElem?.mp hmem
    have hflag : (s.threads.map Thread.owns)[tid]? = some true := by
      simp [hth, Thread.owns, hterm, hpc]
    have hlive := hsafe tid th ((ho.owner tid).mpr hflag) hth
    exact absurd (hterm.symm.trans hlive) (by decide)
  · intro hnone tid th hmutex hth
    have hflag := (ho.owner tid).mp hmutex
    simp only [List.getElem?_map, hth, Option.map_some, Option.some.injEq] at hflag
    cases hterm : th.terminated with
    | false => rfl
    | true =>
        have hmem := List.mem_of_getElem? hth
        have hpc := hnone th hmem hterm
        have hpoint := (ho.stopped th hmem hterm).resolve_left hpc
        cases h : th.pc <;>
          simp_all [Thread.owns, cancellationPoint, Pc.inCriticalSection]

/-- As long as no cancellation is acted on in `pthread_cond_wait`, no thread gets to the
point where it re-acquires the mutex only to die. -/
theorem Effect.none_cancelWait {s s' : State} {a : Action} (he : Effect s a s')
    (hout : OutsideWait s a) (hn : ∀ th ∈ s.threads, th.pc ≠ .cancelWait) :
    ∀ th ∈ s'.threads, th.pc ≠ .cancelWait := by
  cases he with
  | work tid rnd th q m th' action at? live next queue mutex threads =>
      have hpc := hn th (List.mem_of_getElem? at?)
      rw [threads]
      exact forall_mem_set hn (threadStep_pc_ne_cancelWait hpc next)
  | exit queue mutex threads => rw [threads]; exact hn
  | signal tid th at? pc live queue mutex threads =>
      have hset : ∀ v ∈ s.threads.set tid { th with pc := .unlock }, v.pc ≠ .cancelWait :=
        forall_mem_set hn (by simp)
      rcases threads with ⟨_, threads⟩ | ⟨w, v, hv, hwaits, threads⟩
      · rw [threads]
        exact hset
      · rw [threads]
        exact forall_mem_set hset (by simp)
  | wake tid th at? pc live queue mutex threads => rw [threads]; exact forall_mem_set hn (by simp)
  | cancelWait tid th action at? pc live queue mutex threads =>
      exact absurd pc (hout tid th action at?)
  | terminate tid th at? point pc live queue mutex threads =>
      rw [threads]
      exact forall_mem_set hn (hn th (List.mem_of_getElem? at?))
  | create th start live queue mutex threads =>
      rw [threads]
      refine List.forall_mem_append.mpr ⟨hn, ?_⟩
      rcases start with hpc | hpc <;> simp [hpc]
  | main th th' at? pc pc' live queue mutex threads =>
      have hset : ∀ v ∈ s.threads.set 0 th', v.pc ≠ .cancelWait := by
        refine forall_mem_set hn ?_
        rcases pc' with hpc | ⟨tid, hpc⟩
        · rintro h
          simp [h] at hpc
        · simp [hpc]
      rcases threads with threads | ⟨tid, threads⟩
      · rw [threads]
        exact hset
      · rw [threads]
        exact forall_mem_modify hset fun _ _ hv => hv
  | refuse same => exact same ▸ hn

/-- With room for every message no call of the queue ends the program. -/
theorem fault_of_reaches {memory : MsgStruct} {s : State}
    (h : Reaches step FindsRoom (init memory) s) : s.fault = none := by
  have hinv := h.invariant (I := fun u => Reaches step FindsRoom (init memory) u ∧ u.fault = none)
    ⟨.refl, rfl⟩ ?_
  · exact hinv.2
  · rintro u a v ⟨hu, -⟩ hroom hstep
    refine ⟨hu.tail ⟨a, hroom, hstep⟩, ?_⟩
    rcases step_fault hstep with hnone | ⟨tid, rnd, th, e, ha, hth, hexit, -⟩
    · exact hnone
    · have hq := counted_of_reaches hu
      obtain ⟨hpc, haccess⟩ := threadStep_exit hexit
      rcases access_exit haccess with ⟨hrole, hadd⟩ | ⟨hrole, hget⟩
      · obtain ⟨hamount, hhead⟩ := hroom tid rnd th ha hth hrole hpc
        rcases addMsg_error hq hadd with hfull | hused
        · exact absurd hfull hamount
        · exact absurd hused hhead.ne
      · have hsome := stocked_of_reaches hu th (List.mem_of_getElem? hth) hrole hpc
        obtain ⟨r, hr⟩ := getMsg_ok hq hsome
        rw [hr] at hget
        cases hget

/-- As long as no call has ended the program, a terminated thread owns the mutex exactly if a
thread died of its cancellation in `pthread_cond_wait`. A run without such a cancellation in which
every `add_msg` finds room is safe throughout, and nothing in it ends the program. -/
theorem condWait_removal_safe_iff (memory : MsgStruct) (s : State) :
    (Reaches step anything (init memory) s → s.fault = none →
      (MutexSafe s ↔ NoneDiedWaiting s)) ∧
    (Reaches step (fun u a => OutsideWait u a ∧ FindsRoom u a) (init memory) s →
      s.fault = none ∧ MutexSafe s) := by
  refine ⟨fun h _ => (owned_of_reaches h).mutexSafe_iff, fun h => ?_⟩
  have hnone : ∀ th ∈ s.threads, th.pc ≠ .cancelWait :=
    h.invariant (I := fun u => ∀ th ∈ u.threads, th.pc ≠ .cancelWait) (by simp [init])
      fun _ _ _ hu hallowed hstep => (step_effect hstep).none_cancelWait hallowed.1 hu
  exact ⟨fault_of_reaches (h.mono fun _ _ hallowed => hallowed.2),
    (owned_of_reaches h).mutexSafe_iff.mpr fun th hmem _ => hnone th hmem⟩

/-- A consumer finds the queue empty, waits, and is removed. -/
def removeWaiting : List Action :=
  .command (.createConsumer Msg.zero 0) :: List.replicate 3 (.run 1 noRand) ++
    [.command .removeConsumer, .cancelled 1, .run 1 noRand, .joined]

def zeroMemory : MsgStruct := ⟨0, 0, 0, 0, 0, Vector.replicate msgMax Msg.zero⟩

theorem removal_of_waiting_unsafe :
    ∃ s, Reaches step anything (init zeroMemory) s ∧ s.fault = none ∧ ¬ MutexSafe s := by
  have hrun : ∃ s, exec step (init zeroMemory) removeWaiting = some s ∧ s.fault = none ∧
      s.mutex = some 1 ∧ (s.threads[1]?.map Thread.terminated) = some true :=
    ⟨_, rfl, rfl, rfl, rfl⟩
  obtain ⟨s, hexec, hfault, hmutex, hdead⟩ := hrun
  refine ⟨s, reaches_anything_of_exec hexec, hfault, fun hsafe => ?_⟩
  obtain ⟨th, hth, hterm⟩ := Option.map_eq_some_iff.mp hdead
  exact absurd (hterm.symm.trans (hsafe 1 th hmutex hth)) (by decide)

/-- The user adds a message, a consumer takes it and is removed while it sleeps. -/
def removeSleeping : List Action :=
  [.command .plus] ++ List.replicate 4 (.run 0 noRand) ++ [.signal 0 none] ++
    List.replicate 2 (.run 0 noRand) ++ [.command (.createConsumer Msg.zero 0)] ++
    List.replicate 3 (.run 1 noRand) ++ [.signal 1 none] ++ List.replicate 3 (.run 1 noRand) ++
    [.command .removeConsumer, .cancelled 1, .joined]

theorem condWait_removal_safe_iff_sleeping :
    ∃ s, Reaches step (fun u a => OutsideWait u a ∧ FindsRoom u a) (init zeroMemory) s ∧
      s.threads.map Thread.terminated = [false, true] ∧
      (MutexSafe s ↔ NoneDiedWaiting s) ∧ MutexSafe s := by
  have hrun : (exec (fun u a => if OutsideWait u a ∧ FindsRoom u a then step u a else none)
      (init zeroMemory) removeSleeping).map (fun s => s.threads.map Thread.terminated) =
        some [false, true] := by
    decide +kernel
  obtain ⟨s, hexec, hdead⟩ := Option.map_eq_some_iff.mp hrun
  have hreach := reaches_of_guarded hexec
  obtain ⟨hfault, hsafe⟩ := (condWait_removal_safe_iff zeroMemory s).2 hreach
  exact ⟨s, hreach, hdead, (condWait_removal_safe_iff zeroMemory s).1 hreach.anything hfault,
    hsafe⟩

end OsaspLabs.Lab7
