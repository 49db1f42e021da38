import OsaspLabs.Lab7.Delivery
import OsaspLabs.Lab7.WakeUps

/-! # What still comes out of the queue of LAB_7 p1

A thread that has died in `pthread_cond_wait` owns the mutex for ever, and the queue is silent.
Otherwise a producer and a consumer that nobody cancels can bring the next message out of it,
with the wake-ups that the signals give and no other. -/

namespace OsaspLabs.Lab7

open Ipc (Fault)
open Runs

/-! ## Silence -/

/-- The mutex is owned by a thread that has terminated. -/
def Lost (s : State) : Prop := ∃ tid, s.mutex = some tid ∧ Dead s.threads tid

theorem not_lost_iff {s : State} : ¬Lost s ↔ MutexSafe s := by
  constructor
  · intro h tid th hmutex hth
    rw [← Bool.not_eq_true]
    exact fun hterm => h ⟨tid, hmutex, th, hth, hterm⟩
  · rintro h ⟨tid, hmutex, th, hth, hterm⟩
    exact absurd (hterm.symm.trans (h tid th hmutex hth)) (by decide)

/-- Nobody calls the queue without the mutex. -/
theorem Lost.silent {s : State} (h : Lost s) (ho : Owned s) {a : Action} {t : State}
    (hstep : Lab7.step s a = some t) : shows s a = [] := by
  cases a with
  | run tid rnd =>
      simp only [shows]
      cases hth : s.threads[tid]? with
      | none => rfl
      | some th =>
          apply threadEvents_of_ne
          intro hpc
          have hown := (ho.owner tid).mpr (by simp [hth, Thread.owns, hpc, Pc.inCriticalSection])
          obtain ⟨owner, hmutex, v, hv, hterm⟩ := h
          obtain rfl := Option.some.inj (hmutex.symm.trans hown)
          obtain rfl := Option.some.inj (hth.symm.trans hv)
          have hstop := ho.stopped th (List.mem_of_getElem? hth) hterm
          rw [hpc] at hstop
          simp [cancellationPoint] at hstop
  | _ => rfl

theorem Lost.stays {s t : State} {es : List Event} (h : Lost s) (ho : Owned s)
    (hrun : Traced Lab7.step shows s es t) : es = [] := by
  have hend : (Owned t ∧ Lost t) ∧ es = [] := by
    apply hrun.invariant (I := fun es u => (Owned u ∧ Lost u) ∧ es = []) ⟨⟨ho, h⟩, rfl⟩
    rintro fs u a v ⟨⟨hu, hlost⟩, rfl⟩ hstep
    have he := step_effect hstep
    have hsilent := hlost.silent hu hstep
    obtain ⟨tid, hmutex, hdead⟩ := hlost
    obtain ⟨hmutex', hdead'⟩ := he.dead_owner hu hmutex hdead
    exact ⟨⟨hu.step he, tid, hmutex', hdead'⟩, hsilent⟩
  exact hend.2

/-! ## Where the workers stand -/

/-- The places of the loops, and of a wait that has been cancelled. -/
def Pc.ofWorker : Role → Pc → Bool
  | .producer, .produce | .producer, .lock | .producer, .test | .producer, .access
  | .producer, .signal | .producer, .unlock | .producer, .printf | .producer, .sleep => true
  | .consumer, .lock | .consumer, .test | .consumer, .wait | .consumer, .waiting
  | .consumer, .reacquire | .consumer, .access | .consumer, .signal | .consumer, .unlock
  | .consumer, .consume | .consumer, .fprintf | .consumer, .printf | .consumer, .sleep
  | .consumer, .cancelWait => true
  | _, _ => false

def Placed (th : Thread) : Prop :=
  th.pc.ofWorker th.role = true ∧ (th.pc = .cancelWait → th.cancel = true)

/-- Every thread but the main one stands in its loop. -/
def WorkersPlaced (threads : List Thread) : Prop :=
  ∀ k th, k ≠ 0 → threads[k]? = some th → Placed th

theorem WorkersPlaced.set {threads : List Thread} (h : WorkersPlaced threads) {i : ℕ}
    {th : Thread} (hth : i ≠ 0 → Placed th) : WorkersPlaced (threads.set i th) := by
  intro k v hk hv
  rw [List.getElem?_set] at hv
  split at hv
  · rename_i heq
    subst heq
    split at hv
    · exact Option.some.inj hv ▸ hth hk
    · cases hv
  · exact h k v hk hv

theorem WorkersPlaced.pthreadCancel {threads : List Thread} (h : WorkersPlaced threads) (i : ℕ) :
    WorkersPlaced (pthreadCancel threads i) := by
  intro k v hk hv
  rw [Lab7.pthreadCancel, List.getElem?_modify] at hv
  obtain ⟨th, hth, rfl⟩ := Option.map_eq_some_iff.mp hv
  have hplaced := h k th hk hth
  split
  · exact ⟨hplaced.1, fun _ => rfl⟩
  · exact hplaced

theorem WorkersPlaced.append {threads : List Thread} (h : WorkersPlaced threads) {th : Thread}
    (hth : Placed th) : WorkersPlaced (threads ++ [th]) := by
  intro k v hk hv
  rw [List.getElem?_append] at hv
  split at hv
  · exact h k v hk hv
  · rw [List.mem_singleton.mp (List.mem_of_getElem? hv)]
    exact hth

/-- Only the death of a cancelled waiter changes more of a thread than where it stands and what it
holds. -/
theorem threadStep_same {self : ℕ} {rnd : Rand} {q q' : MsgStruct} {m m' : Option ℕ}
    {th th' : Thread} (hstep : threadStep self rnd q m th = .next q' m' th') :
    th'.role = th.role ∧ th'.cancel = th.cancel ∧
      (th.pc ≠ .cancelWait → th'.terminated = th.terminated) := by
  cases hpc : th.pc <;> simp only [threadStep, hpc] at hstep
  case getchar | waiting | signal | join => cases hstep
  case lock | reacquire | infoLock =>
    obtain ⟨_, _, rfl⟩ := lockMutex_next hstep
    exact ⟨rfl, rfl, fun _ => rfl⟩
  case cancelWait =>
    obtain ⟨_, _, rfl⟩ := lockMutex_next hstep
    exact ⟨rfl, rfl, fun h => absurd rfl h⟩
  case access =>
    unfold access at hstep
    split at hstep <;> split at hstep
    · cases hstep
    · cases hstep
      exact ⟨rfl, rfl, fun _ => rfl⟩
    · cases hstep
    · cases hstep
      exact ⟨rfl, rfl, fun _ => rfl⟩
  all_goals
    cases hstep
    exact ⟨rfl, rfl, fun _ => rfl⟩

/-- A thread goes on in its loop: a producer has room, so it does not wait. -/
theorem Placed.step {self : ℕ} {rnd : Rand} {q q' : MsgStruct} {m m' : Option ℕ}
    {th th' : Thread} (h : Placed th) (hself : self ≠ 0) (hq : Counted q)
    (hstep : threadStep self rnd q m th = .next q' m' th') : Placed th' := by
  have hroom : mustWait q .producer = false := by
    have hlt := hq.amount_lt
    simp only [mustWait, decide_eq_false_iff_not]
    omega
  obtain ⟨hsame, hcancel', -⟩ := threadStep_same hstep
  refine ⟨?_, fun hpc' => hcancel'.trans (h.2 ?_)⟩
  · have hplace := h.1
    rw [hsame]
    cases hpc : th.pc <;> simp only [threadStep, hpc] at hstep
    case getchar | waiting | signal | join => cases hstep
    case lock | reacquire | infoLock | cancelWait =>
      obtain ⟨_, _, rfl⟩ := lockMutex_next hstep
      cases hrole : th.role <;> simp [Pc.ofWorker, hrole, hpc] at hplace ⊢
    case access =>
      obtain ⟨_, hpc', _⟩ := access_next hstep
      rw [hpc']
      cases th.role <;> rfl
    case test =>
      cases hstep
      cases hrole : th.role with
      | producer => simp [Pc.ofWorker, hroom]
      | consumer => cases hmust : mustWait q .consumer <;> simp [Pc.ofWorker]
    case consume =>
      cases hstep
      cases hrole : th.role with
      | producer => simp [Pc.ofWorker, hrole, hpc] at hplace
      | consumer => cases hwrong : consume th.msg <;> simp [Pc.ofWorker]
    all_goals
      cases hstep
      cases hrole : th.role <;> simp [Pc.ofWorker, hrole, hpc, hself] at hplace ⊢
  · by_contra hne
    exact threadStep_pc_ne_cancelWait hne hstep hpc'

theorem WorkersPlaced.step {s t : State} {a : Action} (h : WorkersPlaced s.threads)
    (hq : Counted s.queue) (hstep : Lab7.step s a = some t) : WorkersPlaced t.threads := by
  unfold Lab7.step at hstep
  split at hstep
  · cases hstep
  · cases a with
    | run tid rnd =>
        simp only [runThread] at hstep
        split at hstep
        · cases hstep
        · rename_i th hth
          split at hstep
          · cases hstep
          · split at hstep
            · cases hstep
            · rename_i q m th' hnext
              obtain rfl := Option.some.inj hstep
              exact h.set fun hne => (h tid th hne hth).step hne hq hnext
            · obtain rfl := Option.some.inj hstep
              exact h
    | signal tid woken =>
        obtain ⟨th, hth, -, hpc, hwoken⟩ := signal_cases hstep
        have hself : WorkersPlaced (s.threads.set tid { th with pc := .unlock }) :=
          h.set fun _ => ⟨by cases th.role <;> rfl, fun hpc => by cases hpc⟩
        rcases hwoken with ⟨-, rfl⟩ | ⟨w, v, hv, hwaits, rfl⟩
        · exact hself
        · refine hself.set fun hne => ?_
          simp only [Thread.waitsOn, Bool.and_eq_true, decide_eq_true_eq] at hwaits
          have hplace := (h w v hne hv).1
          refine ⟨?_, fun hpc => by cases hpc⟩
          cases hrole : v.role <;> simp [Pc.ofWorker, hrole, hwaits.1.2] at hplace ⊢
    | wake tid =>
        obtain ⟨th, hth, -, hpc, rfl⟩ := wake_cases hstep
        refine h.set fun hne => ⟨?_, fun hpc => by cases hpc⟩
        have hplace := (h tid th hne hth).1
        cases hrole : th.role <;> simp [Pc.ofWorker, hrole, hpc] at hplace ⊢
    | cancelled tid =>
        simp only [actOnCancel] at hstep
        split at hstep
        · cases hstep
        · rename_i th hth
          split at hstep
          · rename_i hcond
            obtain rfl := Option.some.inj hstep
            simp only [Bool.and_eq_true] at hcond
            refine h.set fun hne => ?_
            have hplaced := h tid th hne hth
            split
            · rename_i hpc
              refine ⟨?_, fun _ => hcond.1.1⟩
              have hplace := hplaced.1
              cases hrole : th.role <;> simp [Pc.ofWorker, hrole, hpc] at hplace ⊢
            · exact hplaced
          · cases hstep
    | joined =>
        obtain ⟨main, tid, -, -, rfl⟩ := pthreadJoined_cases hstep
        exact h.set fun hne => absurd rfl hne
    | command c =>
        simp only [runCommand] at hstep
        split at hstep
        · cases hstep
        · split at hstep
          · obtain rfl := Option.some.inj hstep
            have hmain (th : Thread) : WorkersPlaced (s.threads.set 0 th) :=
              h.set fun hne => absurd rfl hne
            cases c with
            | createProducer msg counter =>
                simp only [command, createProducer]
                split
                · exact h
                · exact h.append ⟨rfl, fun hpc => by cases hpc⟩
            | createConsumer msg counter =>
                simp only [command, createConsumer]
                split
                · exact h
                · exact h.append ⟨rfl, fun hpc => by cases hpc⟩
            | removeProducer =>
                simp only [command, removeProducer]
                split
                · exact h
                · exact (hmain _).pthreadCancel _
            | removeConsumer =>
                simp only [command, removeConsumer]
                split
                · exact h
                · exact (hmain _).pthreadCancel _
            | info => exact hmain _
            | plus => exact hmain _
            | minus => exact hmain _
          · cases hstep

theorem workersPlaced_of_reaches {allowed : State → Action → Prop} {memory : MsgStruct} {s : State}
    (h : Reaches Lab7.step allowed (init memory) s) : WorkersPlaced s.threads := by
  have hinv : Reaches Lab7.step allowed (init memory) s ∧ WorkersPlaced s.threads := by
    refine h.invariant (I := fun u => Reaches Lab7.step allowed (init memory) u ∧
      WorkersPlaced u.threads) ⟨.refl, ?_⟩ ?_
    · intro k th hk hth
      cases k with
      | zero => exact absurd rfl hk
      | succ k => simp [init] at hth
    · intro u a v hu ha hstep
      exact ⟨hu.1.tail ⟨a, ha, hstep⟩, hu.2.step (counted_of_reaches hu.1) hstep⟩
  exact hinv.2

/-! ## Runs of the threads alone -/

/-- A thread goes on by itself, or signals; no command, no cancellation and no other wake-up, and no
cancelled waiter takes the mutex. -/
def OwnStep (s : State) (a : Action) : Prop :=
  (∃ k rnd th, a = .run k rnd ∧ s.threads[k]? = some th ∧ th.pc ≠ .cancelWait) ∨
    ∃ k woken, a = .signal k woken

/-- A thread other than the main one that nobody cancels. -/
def Worker (s : State) (k : ℕ) (role : Role) : Prop :=
  k ≠ 0 ∧ ∃ th, s.threads[k]? = some th ∧ th.role = role ∧ th.terminated = false ∧
    th.cancel = false

/-- The next step takes a message or ends the program. -/
def Ready (s : State) : Prop :=
  ∃ (k : ℕ) (th : Thread), s.threads[k]? = some th ∧ th.terminated = false ∧ th.pc = .access ∧
    (th.role = .consumer ∨ ∃ e, addMsg s.queue th.msg = .error e)

/-- A state of a run of the program in which the workers `p` and `c` are left. -/
structure Going (memory : MsgStruct) (p c : ℕ) (s : State) : Prop where
  reaches : Reaches Lab7.step anything (init memory) s
  fault : s.fault = none
  producer : Worker s p .producer
  consumer : Worker s c .consumer

section Threads

variable {threads : List Thread} {i k : ℕ} {th th' v : Thread}

theorem getElem?_set_same (h : threads[k]? = some th) : (threads.set k th')[k]? = some th' := by
  rw [List.getElem?_set_self (List.getElem?_eq_some_iff.mp h).1]

/-- A thread that keeps its role and its flags stays the worker that it is. -/
theorem worker_set {s t : State} {role : Role} (h : Worker s i role)
    (hth : s.threads[k]? = some th) (ht : t.threads = s.threads.set k th')
    (hsame : th'.role = th.role ∧ th'.cancel = th.cancel ∧ th'.terminated = th.terminated) :
    Worker t i role := by
  obtain ⟨hne, v, hv, hrole, hlive, hcancel⟩ := h
  refine ⟨hne, ?_⟩
  rw [ht]
  by_cases heq : k = i
  · subst heq
    obtain rfl := Option.some.inj (hth.symm.trans hv)
    exact ⟨th', getElem?_set_same hth, hsame.1.trans hrole, hsame.2.2.trans hlive,
      hsame.2.1.trans hcancel⟩
  · exact ⟨v, by rw [List.getElem?_set_ne heq, hv], hrole, hlive, hcancel⟩

end Threads

section Going

variable {memory : MsgStruct} {p c k : ℕ} {s : State} {th th' : Thread}

theorem Going.owned (h : Going memory p c s) : Owned s := owned_of_reaches h.reaches

/-- A thread takes its next step. -/
theorem Going.run (h : Going memory p c s) (hth : s.threads[k]? = some th)
    (hlive : th.terminated = false) (hpc : th.pc ≠ .cancelWait) {q : MsgStruct} {m : Option ℕ}
    (hnext : threadStep k noRand s.queue s.mutex th = .next q m th') :
    let t : State := { s with queue := q, mutex := m, threads := s.threads.set k th' }
    OwnStep s (.run k noRand) ∧ Lab7.step s (.run k noRand) = some t ∧ Going memory p c t := by
  have hstep : Lab7.step s (.run k noRand) =
      some { s with queue := q, mutex := m, threads := s.threads.set k th' } := by
    simp [Lab7.step, h.fault, runThread, hth, hlive, hnext]
  obtain ⟨hrole, hcancel, hterm⟩ := threadStep_same hnext
  have hsame := And.intro hrole (And.intro hcancel (hterm hpc))
  exact ⟨.inl ⟨k, noRand, th, rfl, hth, hpc⟩, hstep, h.reaches.tail ⟨_, trivial, hstep⟩, h.fault,
    worker_set h.producer hth rfl hsame, worker_set h.consumer hth rfl hsame⟩

/-- A thread signals, and a waiter wakes if there is one. -/
theorem Going.signal (h : Going memory p c s) (hth : s.threads[k]? = some th)
    (hlive : th.terminated = false) (hpc : th.pc = .signal) :
    ∃ woken t, Lab7.step s (.signal k woken) = some t ∧ t.queue = s.queue ∧ t.mutex = s.mutex ∧
      t.threads[k]? = some { th with pc := .unlock } ∧ Going memory p c t := by
  have hcond : (th.terminated || th.pc != .signal) = false := by simp [hlive, hpc]
  by_cases hwaits : ∃ v ∈ s.threads, v.waitsOn th.role.signals = true
  · obtain ⟨v, hv, hwait⟩ := hwaits
    obtain ⟨w, hw⟩ := List.mem_iff_getElem?.mp hv
    have hne : w ≠ k := by
      rintro rfl
      obtain rfl := Option.some.inj (hth.symm.trans hw)
      simp [Thread.waitsOn, hpc] at hwait
    have hstep : Lab7.step s (.signal k (some w)) = some { s with
        threads := (s.threads.set k { th with pc := .unlock }).set w
          { v with pc := .reacquire } } := by
      simp [Lab7.step, h.fault, Lab7.signal, hth, hcond, hw, hwait]
    have hw' : (s.threads.set k { th with pc := .unlock })[w]? = some v := by
      rw [List.getElem?_set_ne hne.symm, hw]
    have hkeep : ∀ {i role}, Worker s i role → Worker { s with
        threads := (s.threads.set k { th with pc := .unlock }).set w
          { v with pc := .reacquire } } i role := by
      intro i role hworker
      have hmid : Worker { s with threads := s.threads.set k { th with pc := .unlock } } i role :=
        worker_set hworker hth rfl ⟨rfl, rfl, rfl⟩
      exact worker_set hmid hw' rfl ⟨rfl, rfl, rfl⟩
    refine ⟨some w, _, hstep, rfl, rfl, ?_, h.reaches.tail ⟨_, trivial, hstep⟩, h.fault,
      hkeep h.producer, hkeep h.consumer⟩
    rw [List.getElem?_set_ne hne, getElem?_set_same hth]
  · have hnone : (s.threads.any fun v => v.waitsOn th.role.signals) = false := by
      rw [List.any_eq_false]
      exact fun v hv hwait => hwaits ⟨v, hv, hwait⟩
    have hstep : Lab7.step s (.signal k none) =
        some { s with threads := s.threads.set k { th with pc := .unlock } } := by
      simp [Lab7.step, h.fault, Lab7.signal, hth, hcond, hnone]
    exact ⟨none, _, hstep, rfl, rfl, getElem?_set_same hth, h.reaches.tail ⟨_, trivial, hstep⟩,
      h.fault, worker_set h.producer hth rfl ⟨rfl, rfl, rfl⟩,
      worker_set h.consumer hth rfl ⟨rfl, rfl, rfl⟩⟩

/-- With the mutex free nobody stands in the critical section. -/
theorem Going.outside (h : Going memory p c s) (hmutex : s.mutex = none)
    (hth : s.threads[k]? = some th) (hlive : th.terminated = false) :
    th.pc.inCriticalSection = false := by
  cases hin : th.pc.inCriticalSection with
  | false => rfl
  | true =>
      have hown := (h.owned.owner k).mpr (by simp [hth, owns_of_live hlive, hin])
      rw [hmutex] at hown
      cases hown

/-! ## The mutex gets free -/

/-- How far a place of the critical section is from its end. -/
def Pc.toUnlock : Pc → ℕ
  | .test => 5
  | .access => 4
  | .signal => 3
  | .unlock | .infoPrintf => 2
  | .wait | .infoUnlock => 1
  | _ => 0

/-- How far the owner of the mutex is from dropping it. -/
def State.toUnlock (s : State) : ℕ :=
  match s.mutex with
  | none => 0
  | some k => (s.threads[k]?.map fun th => th.pc.toUnlock).getD 0

theorem toUnlock_eq {k : ℕ} (hmutex : s.mutex = some k) (hth : s.threads[k]? = some th) :
    s.toUnlock = th.pc.toUnlock := by
  simp only [State.toUnlock, hmutex, hth, Option.map_some, Option.getD_some]

/-- The owner of the mutex lives. -/
def OwnerLives (s : State) : Prop :=
  ∀ k, s.mutex = some k → ∃ th, s.threads[k]? = some th ∧ th.terminated = false

/-- The mutex is free, or its owner is nearer to dropping it than at `pc`. -/
def Nearer (k : ℕ) (pc : Pc) (t : State) : Prop :=
  t.mutex = none ∨ ∃ th, t.mutex = some k ∧ t.threads[k]? = some th ∧ th.terminated = false ∧
    th.pc.toUnlock < pc.toUnlock

theorem Going.runNearer (h : Going memory p c s) (hth : s.threads[k]? = some th)
    (hlive : th.terminated = false) (hpc : th.pc ≠ .cancelWait) {q : MsgStruct} {m : Option ℕ}
    (hnext : threadStep k noRand s.queue s.mutex th = .next q m th')
    (hm : m = none ∨ m = some k ∧ th'.pc.toUnlock < th.pc.toUnlock) :
    ∃ a t, OwnStep s a ∧ Lab7.step s a = some t ∧ Going memory p c t ∧ Nearer k th.pc t := by
  obtain ⟨hown, hstep, hgoing⟩ := h.run hth hlive hpc hnext
  refine ⟨_, _, hown, hstep, hgoing, hm.imp_right fun hsome => ?_⟩
  have hlive' := ((threadStep_same hnext).2.2 hpc).trans hlive
  exact ⟨th', hsome.1, getElem?_set_same hth, hlive', hsome.2⟩

/-- One step of the owner, unless it is about to take a message or to end the program. -/
theorem Going.ownerStep (h : Going memory p c s) (hmutex : s.mutex = some k)
    (hth : s.threads[k]? = some th) (hlive : th.terminated = false) (hready : ¬Ready s) :
    ∃ a t, OwnStep s a ∧ Lab7.step s a = some t ∧ Going memory p c t ∧ Nearer k th.pc t := by
  have hin : th.pc.inCriticalSection = true := by
    have hown := (h.owned.owner k).mp hmutex
    simpa [hth, owns_of_live hlive] using hown
  have hne : th.pc ≠ .cancelWait := by
    intro hpc
    simp [hpc, Pc.inCriticalSection] at hin
  cases hpc : th.pc <;> simp only [hpc, Pc.inCriticalSection, Bool.false_eq_true] at hin
  case test =>
    have hnext : threadStep k noRand s.queue s.mutex th = .next s.queue s.mutex
        { th with pc := if mustWait s.queue th.role then .wait else .access } := by
      simp only [threadStep, hpc]
    rw [← hpc]
    refine h.runNearer hth hlive hne hnext (.inr ⟨hmutex, ?_⟩)
    rw [hpc]
    dsimp only
    split <;> decide
  case wait =>
    have hnext : threadStep k noRand s.queue s.mutex th =
        .next s.queue none { th with pc := .waiting } := by
      simp only [threadStep, hpc, unlockMutex]
      rfl
    rw [← hpc]
    exact h.runNearer hth hlive hne hnext (.inl rfl)
  case access =>
    cases hrole : th.role with
    | consumer => exact absurd ⟨k, th, hth, hlive, hpc, .inl hrole⟩ hready
    | producer =>
        cases hadd : addMsg s.queue th.msg with
        | error e => exact absurd ⟨k, th, hth, hlive, hpc, .inr ⟨e, hadd⟩⟩ hready
        | ok r =>
            have hnext : threadStep k noRand s.queue s.mutex th =
                .next r.2 s.mutex { th with pc := .signal, counter := r.1 } := by
              simp only [threadStep, hpc, Lab7.access, hrole, hadd]
            rw [← hpc]
            refine h.runNearer hth hlive hne hnext (.inr ⟨hmutex, ?_⟩)
            rw [hpc]
            exact Nat.lt_succ_self 3
  case signal =>
    obtain ⟨woken, t, hstep, -, hmutex', hth', hgoing⟩ := h.signal hth hlive hpc
    exact ⟨_, t, .inr ⟨k, woken, rfl⟩, hstep, hgoing,
      .inr ⟨_, hmutex'.trans hmutex, hth', hlive, Nat.lt_succ_self 2⟩⟩
  case unlock =>
    have hleaves : ∃ th', threadStep k noRand s.queue s.mutex th = .next s.queue none th' := by
      simp only [threadStep, hpc, unlockMutex]
      exact ⟨_, rfl⟩
    obtain ⟨th', hnext⟩ := hleaves
    rw [← hpc]
    exact h.runNearer hth hlive hne hnext (.inl rfl)
  case infoPrintf =>
    have hnext : threadStep k noRand s.queue s.mutex th =
        .next s.queue s.mutex { th with pc := .infoUnlock } := by
      simp only [threadStep, hpc]
    rw [← hpc]
    refine h.runNearer hth hlive hne hnext (.inr ⟨hmutex, ?_⟩)
    rw [hpc]
    exact Nat.lt_succ_self 1
  case infoUnlock =>
    have hnext : threadStep k noRand s.queue s.mutex th =
        .next s.queue none { th with pc := .getchar } := by
      simp only [threadStep, hpc, unlockMutex]
      rfl
    rw [← hpc]
    exact h.runNearer hth hlive hne hnext (.inl rfl)

theorem Going.unlocks (h : Going memory p c s) (hlive : OwnerLives s) :
    ∃ t, Reaches Lab7.step OwnStep s t ∧ Going memory p c t ∧ (Ready t ∨ t.mutex = none) := by
  obtain ⟨t, ht, ⟨hgoing, -⟩, hfinal⟩ : ∃ t, Reaches Lab7.step OwnStep s t ∧
      (Going memory p c t ∧ OwnerLives t) ∧ (Ready t ∨ t.mutex = none) := by
    apply Reaches.exists_final (I := fun u => Going memory p c u ∧ OwnerLives u)
      State.toUnlock ?_ ⟨h, hlive⟩
    rintro u ⟨hu, hlives⟩ hfinal
    obtain ⟨hready, hmutex⟩ := not_or.mp hfinal
    obtain ⟨k, hk⟩ := Option.ne_none_iff_exists'.mp hmutex
    obtain ⟨th, hth, hlive⟩ := hlives k hk
    obtain ⟨a, v, hown, hstep, hgoing, hnear⟩ := hu.ownerStep hk hth hlive hready
    rw [toUnlock_eq hk hth]
    refine ⟨a, v, hown, hstep, ?_⟩
    rcases hnear with hnone | ⟨th', hsome, hth', hlive', hlt⟩
    · have hpos : 0 < th.pc.toUnlock := by
        have hin := (hu.owned.owner k).mp hk
        simp only [List.getElem?_map, hth, Option.map_some, owns_of_live hlive,
          Option.some.injEq] at hin
        cases hpc : th.pc <;> simp [hpc, Pc.inCriticalSection] at hin <;> decide
      refine ⟨⟨hgoing, fun j hj => ?_⟩, ?_⟩
      · rw [hnone] at hj
        cases hj
      · simpa only [State.toUnlock, hnone] using hpos
    · refine ⟨⟨hgoing, fun j hj => ?_⟩, ?_⟩
      · obtain rfl := Option.some.inj (hsome.symm.trans hj)
        exact ⟨th', hth', hlive'⟩
      · rw [toUnlock_eq hsome hth']
        exact hlt
  exact ⟨t, ht, hgoing, hfinal⟩

/-! ## A message is taken -/

/-- How far a consumer is from `get_msg`. -/
def Pc.toTake : Pc → ℕ
  | .consume => 6
  | .fprintf => 5
  | .printf => 4
  | .sleep => 3
  | .lock | .reacquire => 2
  | .test => 1
  | _ => 0

/-- Where a consumer is with the mutex free or in its hands. -/
def OnWayToTake (m : Option ℕ) (k : ℕ) (pc : Pc) : Prop :=
  m = none ∧ (pc = .reacquire ∨ k ≠ 0 ∧ pc ∈ [.lock, .consume, .fprintf, .printf, .sleep]) ∨
    m = some k ∧ pc ∈ [.test, .access]

/-- The consumer `k` is on its way to a message. -/
def Taking (k : ℕ) (s : State) : Prop :=
  s.queue.messageAmount ≠ 0 ∧ ∃ th, s.threads[k]? = some th ∧ th.terminated = false ∧
    th.role = .consumer ∧ OnWayToTake s.mutex k th.pc

/-- The consumer goes on by a step that leaves the queue alone. -/
theorem Going.runTaking (h : Going memory p c s) (hsome : s.queue.messageAmount ≠ 0)
    (hth : s.threads[k]? = some th) (hlive : th.terminated = false) (hrole : th.role = .consumer)
    (hpc : th.pc ≠ .cancelWait) {m : Option ℕ}
    (hnext : threadStep k noRand s.queue s.mutex th = .next s.queue m th')
    (hway : OnWayToTake m k th'.pc) (hlt : th'.pc.toTake < th.pc.toTake) :
    ∃ a t, OwnStep s a ∧ Lab7.step s a = some t ∧ (Going memory p c t ∧ Taking k t) ∧
      (t.threads[k]?.map fun th => th.pc.toTake).getD 0 <
        (s.threads[k]?.map fun th => th.pc.toTake).getD 0 := by
  obtain ⟨hown, hstep, hgoing⟩ := h.run hth hlive hpc hnext
  obtain ⟨hrole', -, hlive'⟩ := threadStep_same hnext
  have hth' : (s.threads.set k th')[k]? = some th' := getElem?_set_same hth
  refine ⟨_, _, hown, hstep, ⟨hgoing, hsome, th', hth', (hlive' hpc).trans hlive,
    hrole'.trans hrole, hway⟩, ?_⟩
  simpa only [hth, hth', Option.map_some, Option.getD_some] using hlt

theorem Going.takingStep (h : Going memory p c s) (htaking : Taking k s) (hready : ¬Ready s) :
    ∃ a t, OwnStep s a ∧ Lab7.step s a = some t ∧ (Going memory p c t ∧ Taking k t) ∧
      (t.threads[k]?.map fun th => th.pc.toTake).getD 0 <
        (s.threads[k]?.map fun th => th.pc.toTake).getD 0 := by
  obtain ⟨hsome, th, hth, hlive, hrole, hway⟩ := htaking
  have hgo : ∀ {m : Option ℕ} {th' : Thread}, th.pc ≠ .cancelWait →
      threadStep k noRand s.queue s.mutex th = .next s.queue m th' →
      OnWayToTake m k th'.pc → th'.pc.toTake < th.pc.toTake → _ :=
    fun hpc => h.runTaking hsome hth hlive hrole hpc
  rcases hway with ⟨hmutex, hpc | ⟨hk, hpc⟩⟩ | ⟨hmutex, hpc⟩
  · have hnext : threadStep k noRand s.queue s.mutex th =
        .next s.queue (some k) { th with pc := .test } := by
      simp only [threadStep, hpc, hmutex, lockMutex]
      rfl
    exact hgo (by simp [hpc]) hnext (.inr ⟨rfl, by simp⟩) (by simp [hpc, Pc.toTake])
  · simp only [List.mem_cons, List.not_mem_nil, or_false] at hpc
    rcases hpc with hpc | hpc | hpc | hpc | hpc
    · have hnext : threadStep k noRand s.queue s.mutex th =
          .next s.queue (some k) { th with pc := .test } := by
        simp only [threadStep, hpc, hmutex, lockMutex]
        rfl
      exact hgo (by simp [hpc]) hnext (.inr ⟨rfl, by simp⟩) (by simp [hpc, Pc.toTake])
    · have hnext : threadStep k noRand s.queue s.mutex th = .next s.queue s.mutex
          { th with pc := if Lab7.consume th.msg then .fprintf else .printf } := by
        simp only [threadStep, hpc]
      refine hgo (by simp [hpc]) hnext (.inl ⟨hmutex, .inr ⟨hk, ?_⟩⟩) ?_
      · dsimp only
        split <;> simp
      · rw [hpc]
        dsimp only
        split <;> decide
    · have hnext : threadStep k noRand s.queue s.mutex th =
          .next s.queue s.mutex { th with pc := .printf } := by
        simp only [threadStep, hpc]
      exact hgo (by simp [hpc]) hnext (.inl ⟨hmutex, .inr ⟨hk, by simp⟩⟩)
        (by simp [hpc, Pc.toTake])
    · have hnext : threadStep k noRand s.queue s.mutex th =
          .next s.queue s.mutex { th with pc := .sleep } := by
        simp only [threadStep, hpc, if_neg hk]
      exact hgo (by simp [hpc]) hnext (.inl ⟨hmutex, .inr ⟨hk, by simp⟩⟩)
        (by simp [hpc, Pc.toTake])
    · have hnext : threadStep k noRand s.queue s.mutex th =
          .next s.queue s.mutex { th with pc := .lock } := by
        simp only [threadStep, hpc, hrole]
      exact hgo (by simp [hpc]) hnext (.inl ⟨hmutex, .inr ⟨hk, by simp⟩⟩)
        (by simp [hpc, Pc.toTake])
  · simp only [List.mem_cons, List.not_mem_nil, or_false] at hpc
    rcases hpc with hpc | hpc
    · have hnext : threadStep k noRand s.queue s.mutex th =
          .next s.queue s.mutex { th with pc := .access } := by
        simp [threadStep, hpc, hrole, mustWait, hsome]
      exact hgo (by simp [hpc]) hnext (.inr ⟨hmutex, by simp⟩) (by simp [hpc, Pc.toTake])
    · exact absurd ⟨k, th, hth, hlive, hpc, .inl hrole⟩ hready

theorem Going.takes (h : Going memory p c s) (htaking : Taking k s) :
    ∃ t, Reaches Lab7.step OwnStep s t ∧ Going memory p c t ∧ Ready t := by
  obtain ⟨t, ht, ⟨hgoing, -⟩, hready⟩ : ∃ t, Reaches Lab7.step OwnStep s t ∧
      (Going memory p c t ∧ Taking k t) ∧ Ready t := by
    apply Reaches.exists_final (I := fun u => Going memory p c u ∧ Taking k u)
      (fun u => (u.threads[k]?.map fun th => th.pc.toTake).getD 0) ?_ ⟨h, htaking⟩
    intro u hu hready
    exact hu.1.takingStep hu.2 hready
  exact ⟨t, ht, hgoing, hready⟩

/-- A consumer that waits has been woken for, or the one that nobody cancels is not waiting. -/
theorem Going.taking (h : Going memory p c s) (hmutex : s.mutex = none)
    (hsome : s.queue.messageAmount ≠ 0) : ∃ k, Taking k s := by
  obtain ⟨hne, th, hth, hrole, hlive, hcancel⟩ := h.consumer
  by_cases hwaits : th.pc = .waiting
  · obtain ⟨ho, hw⟩ := wakeUps_of_reaches h.reaches
    have hpos : 0 < waiters s.threads := by
      rw [waiters, tally_toNat]
      exact List.countP_pos_iff.mpr ⟨th, List.mem_of_getElem? hth, by
        simp [Thread.waitsOn, hrole, hwaits, hlive]⟩
    have henough := hw.enough hpos
    rw [takers_eq, ho.countP_inHand hmutex, Nat.add_zero] at henough
    obtain ⟨v, hv, hwoken⟩ := List.countP_pos_iff.mp
      (Nat.lt_of_lt_of_le (Nat.pos_of_ne_zero hsome) henough)
    obtain ⟨k, hk⟩ := List.mem_iff_getElem?.mp hv
    simp only [Thread.woken, Bool.and_eq_true, decide_eq_true_eq, Bool.not_eq_true'] at hwoken
    exact ⟨k, hsome, v, hk, hwoken.2, hwoken.1.1, .inl ⟨hmutex, .inl hwoken.1.2⟩⟩
  · refine ⟨c, hsome, th, hth, hlive, hrole, .inl ⟨hmutex, ?_⟩⟩
    have hout := h.outside hmutex hth hlive
    obtain ⟨hplace, hdying⟩ := workersPlaced_of_reaches h.reaches c th hne hth
    rw [hrole] at hplace
    cases hpc : th.pc <;>
      simp [hpc, Pc.ofWorker, Pc.inCriticalSection, hne, hcancel] at hplace hout hdying hwaits ⊢

/-! ## A message is added -/

/-- How far a producer is from the end of its critical section. -/
def Pc.toAdd : Pc → ℕ
  | .printf => 8
  | .sleep => 7
  | .produce => 6
  | .lock => 5
  | .test => 4
  | .access => 3
  | .signal => 2
  | .unlock => 1
  | _ => 0

/-- Where a producer is with the mutex free or in its hands. -/
def OnWayToAdd (q : MsgStruct) (m : Option ℕ) (k : ℕ) (pc : Pc) : Prop :=
  m = none ∧ pc ∈ [.printf, .sleep, .produce, .lock] ∨
    m = some k ∧ (pc ∈ [.test, .access] ∨ pc ∈ [.signal, .unlock] ∧ q.messageAmount ≠ 0)

def Adding (k : ℕ) (s : State) : Prop :=
  ∃ th, s.threads[k]? = some th ∧ th.terminated = false ∧ th.role = .producer ∧
    OnWayToAdd s.queue s.mutex k th.pc

/-- The mutex is free and there is a message. -/
def Stocked (s : State) : Prop := s.mutex = none ∧ s.queue.messageAmount ≠ 0

instance (s : State) : Decidable (Stocked s) := inferInstanceAs (Decidable (_ ∧ _))

def State.toAdd (s : State) (k : ℕ) : ℕ :=
  if Stocked s then 0 else (s.threads[k]?.map fun th => th.pc.toAdd).getD 0

theorem toAdd_eq (hstocked : ¬Stocked s) (hth : s.threads[k]? = some th) :
    s.toAdd k = th.pc.toAdd := by
  simp only [State.toAdd, if_neg hstocked, hth, Option.map_some, Option.getD_some]

theorem toAdd_lt {n : ℕ} (hth : s.threads[k]? = some th)
    (hlt : th.pc.toAdd < n ∨ Stocked s ∧ 0 < n) : s.toAdd k < n := by
  by_cases hstocked : Stocked s
  · rw [State.toAdd, if_pos hstocked]
    omega
  · rw [toAdd_eq hstocked hth]
    exact hlt.resolve_right fun h => hstocked h.1

/-- The producer takes its next step. -/
theorem Going.runAdding (h : Going memory p c s) (hstocked : ¬Stocked s)
    (hth : s.threads[k]? = some th) (hlive : th.terminated = false) (hrole : th.role = .producer)
    (hpc : th.pc ≠ .cancelWait) {q : MsgStruct} {m : Option ℕ}
    (hnext : threadStep k noRand s.queue s.mutex th = .next q m th')
    (hway : OnWayToAdd q m k th'.pc)
    (hlt : th'.pc.toAdd < th.pc.toAdd ∨
      (m = none ∧ q.messageAmount ≠ 0) ∧ 0 < th.pc.toAdd) :
    ∃ a t, OwnStep s a ∧ Lab7.step s a = some t ∧ (Going memory p c t ∧ Adding k t) ∧
      t.toAdd k < s.toAdd k := by
  obtain ⟨hown, hstep, hgoing⟩ := h.run hth hlive hpc hnext
  obtain ⟨hrole', -, hlive'⟩ := threadStep_same hnext
  have hth' : (s.threads.set k th')[k]? = some th' := getElem?_set_same hth
  refine ⟨_, _, hown, hstep, ⟨hgoing, th', hth', (hlive' hpc).trans hlive, hrole'.trans hrole,
    hway⟩, ?_⟩
  rw [toAdd_eq hstocked hth]
  exact toAdd_lt hth' hlt

theorem Going.addingStep (h : Going memory p c s) (hk : k ≠ 0) (hadding : Adding k s)
    (hfinal : ¬(Ready s ∨ Stocked s)) :
    ∃ a t, OwnStep s a ∧ Lab7.step s a = some t ∧ (Going memory p c t ∧ Adding k t) ∧
      t.toAdd k < s.toAdd k := by
  obtain ⟨hready, hstocked⟩ := not_or.mp hfinal
  obtain ⟨th, hth, hlive, hrole, hway⟩ := hadding
  have hgo : ∀ {q : MsgStruct} {m : Option ℕ} {th' : Thread}, th.pc ≠ .cancelWait →
      threadStep k noRand s.queue s.mutex th = .next q m th' → OnWayToAdd q m k th'.pc →
      th'.pc.toAdd < th.pc.toAdd ∨ (m = none ∧ q.messageAmount ≠ 0) ∧ 0 < th.pc.toAdd → _ :=
    fun hpc => h.runAdding hstocked hth hlive hrole hpc
  rcases hway with ⟨hmutex, hpc⟩ | ⟨hmutex, hpc | ⟨hpc, hsome⟩⟩
  · simp only [List.mem_cons, List.not_mem_nil, or_false] at hpc
    rcases hpc with hpc | hpc | hpc | hpc
    · have hnext : threadStep k noRand s.queue s.mutex th =
          .next s.queue s.mutex { th with pc := .sleep } := by
        simp only [threadStep, hpc, if_neg hk]
      exact hgo (by simp [hpc]) hnext (.inl ⟨hmutex, by simp⟩) (.inl (by simp [hpc, Pc.toAdd]))
    · have hnext : threadStep k noRand s.queue s.mutex th =
          .next s.queue s.mutex { th with pc := .produce } := by
        simp only [threadStep, hpc, hrole]
      exact hgo (by simp [hpc]) hnext (.inl ⟨hmutex, by simp⟩) (.inl (by simp [hpc, Pc.toAdd]))
    · have hnext : threadStep k noRand s.queue s.mutex th =
          .next s.queue s.mutex { th with pc := .lock, msg := Lab7.produce noRand th.msg } := by
        simp only [threadStep, hpc]
      exact hgo (by simp [hpc]) hnext (.inl ⟨hmutex, by simp⟩) (.inl (by simp [hpc, Pc.toAdd]))
    · have hnext : threadStep k noRand s.queue s.mutex th =
          .next s.queue (some k) { th with pc := .test } := by
        simp only [threadStep, hpc, hmutex, lockMutex]
        rfl
      exact hgo (by simp [hpc]) hnext (.inr ⟨rfl, .inl (by simp)⟩)
        (.inl (by simp [hpc, Pc.toAdd]))
  · simp only [List.mem_cons, List.not_mem_nil, or_false] at hpc
    rcases hpc with hpc | hpc
    · have hroom : s.queue.messageAmount ≠ msgMax :=
        (counted_of_reaches h.reaches).amount_lt.ne
      have hnext : threadStep k noRand s.queue s.mutex th =
          .next s.queue s.mutex { th with pc := .access } := by
        simp [threadStep, hpc, hrole, mustWait, hroom]
      exact hgo (by simp [hpc]) hnext (.inr ⟨hmutex, .inl (by simp)⟩)
        (.inl (by simp [hpc, Pc.toAdd]))
    · cases hadd : addMsg s.queue th.msg with
      | error e => exact absurd ⟨k, th, hth, hlive, hpc, .inr ⟨e, hadd⟩⟩ hready
      | ok r =>
          have hnext : threadStep k noRand s.queue s.mutex th =
              .next r.2 s.mutex { th with pc := .signal, counter := r.1 } := by
            simp only [threadStep, hpc, Lab7.access, hrole, hadd]
          have hadded : r.2.messageAmount ≠ 0 := by
            rw [addMsg_amount hadd]
            exact Nat.succ_ne_zero _
          exact hgo (by simp [hpc]) hnext (.inr ⟨hmutex, .inr ⟨by simp, hadded⟩⟩)
            (.inl (by simp [hpc, Pc.toAdd]))
  · simp only [List.mem_cons, List.not_mem_nil, or_false] at hpc
    rcases hpc with hpc | hpc
    · obtain ⟨woken, t, hstep, hqueue, hmutex', hth', hgoing⟩ := h.signal hth hlive hpc
      have hway : OnWayToAdd t.queue t.mutex k .unlock :=
        .inr ⟨hmutex'.trans hmutex, .inr ⟨by simp, hqueue ▸ hsome⟩⟩
      refine ⟨_, t, .inr ⟨k, woken, rfl⟩, hstep, ⟨hgoing, _, hth', hlive, hrole, hway⟩, ?_⟩
      rw [toAdd_eq hstocked hth, hpc]
      exact toAdd_lt hth' (.inl (Nat.lt_succ_self 1))
    · have hnext : threadStep k noRand s.queue s.mutex th =
          .next s.queue none { th with pc := .printf } := by
        simp only [threadStep, hpc, unlockMutex, hrole]
        rfl
      exact hgo (by simp [hpc]) hnext (.inl ⟨rfl, by simp⟩)
        (.inr ⟨⟨rfl, hsome⟩, by simp [hpc, Pc.toAdd]⟩)

theorem Going.adds (h : Going memory p c s) (hk : k ≠ 0) (hadding : Adding k s) :
    ∃ t, Reaches Lab7.step OwnStep s t ∧ Going memory p c t ∧ (Ready t ∨ Stocked t) := by
  obtain ⟨t, ht, ⟨hgoing, -⟩, hfinal⟩ : ∃ t, Reaches Lab7.step OwnStep s t ∧
      (Going memory p c t ∧ Adding k t) ∧ (Ready t ∨ Stocked t) := by
    apply Reaches.exists_final (I := fun u => Going memory p c u ∧ Adding k u)
      (fun u => u.toAdd k) ?_ ⟨h, hadding⟩
    intro u hu hfinal
    exact hu.1.addingStep hk hu.2 hfinal
  exact ⟨t, ht, hgoing, hfinal⟩

/-- The producer that nobody cancels does not wait. -/
theorem Going.adding (h : Going memory p c s) (hmutex : s.mutex = none) : Adding p s := by
  obtain ⟨hne, th, hth, hrole, hlive, hcancel⟩ := h.producer
  refine ⟨th, hth, hlive, hrole, .inl ⟨hmutex, ?_⟩⟩
  have hout := h.outside hmutex hth hlive
  have hplace := (workersPlaced_of_reaches h.reaches p th hne hth).1
  rw [hrole] at hplace
  cases hpc : th.pc <;> simp [hpc, Pc.ofWorker, Pc.inCriticalSection] at hplace hout ⊢

theorem Going.ready (h : Going memory p c s) (hlive : OwnerLives s) :
    ∃ t, Reaches Lab7.step OwnStep s t ∧ Going memory p c t ∧ Ready t := by
  have hstocked : ∃ t, Reaches Lab7.step OwnStep s t ∧ Going memory p c t ∧
      (Ready t ∨ Stocked t) := by
    obtain ⟨t, ht, hgoing, hready | hmutex⟩ := h.unlocks hlive
    · exact ⟨t, ht, hgoing, .inl hready⟩
    · obtain ⟨u, hu, hgoing', hfinal⟩ := hgoing.adds hgoing.producer.1 (hgoing.adding hmutex)
      exact ⟨u, ht.trans hu, hgoing', hfinal⟩
  obtain ⟨t, ht, hgoing, hready | ⟨hmutex, hsome⟩⟩ := hstocked
  · exact ⟨t, ht, hgoing, hready⟩
  · obtain ⟨k, htaking⟩ := hgoing.taking hmutex hsome
    obtain ⟨u, hu, hgoing', hready⟩ := hgoing.takes htaking
    exact ⟨u, ht.trans hu, hgoing', hready⟩

end Going

/-! ## What a cancellation leaves of the traffic -/

/-- The next step takes a message, or ends the program for want of room. -/
theorem Ready.step {memory : MsgStruct} {s : State} (h : Ready s)
    (hreach : Reaches Lab7.step anything (init memory) s) (hfault : s.fault = none) :
    ∃ a v, OwnStep s a ∧ Lab7.step s a = some v ∧
      ((∃ k msg n, shows s a = [.taken k msg n]) ∨
        v.fault ≠ none ∧ (s.queue.messageAmount = msgMax - 1 ∨ s.queue.head = msgMax)) := by
  obtain ⟨k, th, hth, hlive, hpc, hcases⟩ := h
  have hq := counted_of_reaches hreach
  have hown : OwnStep s (.run k noRand) := .inl ⟨k, noRand, th, rfl, hth, by simp [hpc]⟩
  cases hrole : th.role with
  | consumer =>
      have hsome := stocked_of_reaches hreach th (List.mem_of_getElem? hth) hrole hpc
      obtain ⟨⟨msg, n, q⟩, hget⟩ := getMsg_ok hq hsome
      have hstep : Lab7.step s (.run k noRand) = some { s with
          queue := q, threads := s.threads.set k { th with
            pc := .signal, msg := msg, counter := n } } := by
        simp only [Lab7.step, hfault, runThread, hth, hlive, threadStep, hpc, access, hrole, hget]
        rfl
      have hshows : shows s (.run k noRand) = [.taken k msg n] := by
        simp only [shows, hth, threadEvents, hpc, hrole, hget]
      exact ⟨_, _, hown, hstep, .inl ⟨k, msg, n, hshows⟩⟩
  | producer =>
      obtain ⟨e, hadd⟩ := hcases.resolve_left (by simp [hrole])
      have hstep : Lab7.step s (.run k noRand) = some { s with fault := some e } := by
        simp only [Lab7.step, hfault, runThread, hth, hlive, threadStep, hpc, access, hrole, hadd]
        rfl
      exact ⟨_, _, hown, hstep, .inr ⟨Option.some_ne_none e, addMsg_error hq hadd⟩⟩

/-- As long as every `add_msg` has found room: once the mutex belongs to a thread that has
terminated, no message goes in or comes out again, whoever is created or removed. Otherwise, as long
as a producer and a consumer are left that nobody cancels, the threads can go on by themselves,
without a wake-up that no signal gives, until one takes the next message, or an `add_msg` finds a
full or used-up buffer. -/
theorem traffic_after_cancellations {memory : MsgStruct} {s : State}
    (h : Reaches Lab7.step anything (init memory) s) (hfault : s.fault = none) :
    (Lost s → ∀ es u, Traced Lab7.step shows s es u → es = []) ∧
    (¬Lost s → ∀ p c, Worker s p .producer → Worker s c .consumer →
      ∃ u a v, Reaches Lab7.step OwnStep s u ∧ OwnStep u a ∧ Lab7.step u a = some v ∧
        ((∃ k msg n, shows u a = [.taken k msg n]) ∨
          v.fault ≠ none ∧ (u.queue.messageAmount = msgMax - 1 ∨ u.queue.head = msgMax))) := by
  have ho := owned_of_reaches h
  refine ⟨fun hlost _ _ hrun => hlost.stays ho hrun, ?_⟩
  intro hlost p c hp hc
  have hgoing : Going memory p c s := ⟨h, hfault, hp, hc⟩
  have hlives : OwnerLives s := by
    intro k hmutex
    have hown := (ho.owner k).mp hmutex
    rw [List.getElem?_map] at hown
    obtain ⟨th, hth, -⟩ := Option.map_eq_some_iff.mp hown
    exact ⟨th, hth, not_lost_iff.mp hlost k th hmutex hth⟩
  obtain ⟨u, hu, hgoing', hready⟩ := hgoing.ready hlives
  obtain ⟨a, v, hown, hstep, hcases⟩ := hready.step hgoing'.reaches hgoing'.fault
  exact ⟨u, a, v, hu, hown, hstep, hcases⟩

/-- Of two consumers and a producer, a consumer that waits is removed. -/
def removeAmong : List Action :=
  [.command (.createConsumer Msg.zero 0), .command (.createConsumer Msg.zero 0),
    .command (.createProducer Msg.zero 0)] ++ List.replicate 3 (.run 2 noRand) ++
    [.command .removeConsumer, .cancelled 2]

theorem traffic_after_cancellations_waiting :
    (∃ s, exec Lab7.step (init zeroMemory) removeWaiting = some s ∧
      ∀ es u, Traced Lab7.step shows s es u → es = []) ∧
    ∃ s u a v, exec Lab7.step (init zeroMemory) removeAmong = some s ∧
      Reaches Lab7.step OwnStep s u ∧ OwnStep u a ∧ Lab7.step u a = some v ∧
      ((∃ k msg n, shows u a = [.taken k msg n]) ∨
        v.fault ≠ none ∧ (u.queue.messageAmount = msgMax - 1 ∨ u.queue.head = msgMax)) := by
  constructor
  · have hrun : ∃ s, exec Lab7.step (init zeroMemory) removeWaiting = some s ∧ s.fault = none ∧
        Lost s := ⟨_, rfl, rfl, 1, rfl, _, rfl, rfl⟩
    obtain ⟨s, hexec, hfault, hlost⟩ := hrun
    exact ⟨s, hexec,
      (traffic_after_cancellations (reaches_anything_of_exec hexec) hfault).1 hlost⟩
  · have hrun : ∃ s, exec Lab7.step (init zeroMemory) removeAmong = some s ∧ s.mutex = none ∧
        s.fault = none ∧ Worker s 3 .producer ∧ Worker s 1 .consumer :=
      ⟨_, rfl, rfl, rfl, ⟨by decide, _, rfl, rfl, rfl, rfl⟩, by decide, _, rfl, rfl, rfl, rfl⟩
    obtain ⟨s, hexec, hmutex, hfault, hp, hc⟩ := hrun
    have hlost : ¬Lost s := by
      rintro ⟨tid, hsome, -⟩
      rw [hmutex] at hsome
      cases hsome
    obtain ⟨u, a, v, hu⟩ := (traffic_after_cancellations (reaches_anything_of_exec hexec)
      hfault).2 hlost 3 1 hp hc
    exact ⟨s, u, a, v, hexec, hu⟩

end OsaspLabs.Lab7
