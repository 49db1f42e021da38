import OsaspLabs.Ipc.Accounting
import OsaspLabs.Library.Runs

/-! # The threads of LAB_5

The main thread creates producers and consumers and removes the last one of its kind by
`pthread_cancel` and `pthread_join`. Cancellation is deferred: a thread acts on it only at
a cancellation point. -/

namespace OsaspLabs.Lab5

open Ipc

/-- `produce_msg`: the hash is cleared before it is taken. -/
def produceMsg (rnd : Rand) (msg : Msg) : Msg :=
  let filled := { fillMsg rnd msg with hash := 0 }
  { filled with hash := hash filled }

/-- The pthread mutex is the lock. -/
def program : Program (Option ℕ) where
  lock := Lock.mutex
  produceMsg := produceMsg

structure Thread where
  worker : Worker
  /-- A cancellation is pending. -/
  cancel : Bool
  terminated : Bool

structure State where
  shared : Shared (Option ℕ)
  /-- Every thread created so far, in the order of `pthread_create`. -/
  threads : List Thread
  /-- `producers[0 .. producers_amount - 1]`, as positions in `threads`. -/
  producers : List ℕ
  consumers : List ℕ
  /-- The thread that the main thread waits for in `pthread_join`. -/
  joining : Option ℕ
  /-- The exit that a thread took inside a queue call; it ends the program. -/
  fault : Option Fault

/-- The state that `init` leaves: `memory` is the global variable before it. -/
def init (memory : MsgQueue) : State where
  shared := ⟨msgQueueInit memory, none, msgMax, 0⟩
  threads := []
  producers := []
  consumers := []
  joining := none
  fault := none

inductive Action where
  /-- The thread `tid` takes its next step. -/
  | run (tid : ℕ) (rnd : Rand)
  /-- The thread `tid` acts on its pending cancellation. -/
  | cancelled (tid : ℕ)
  /-- `pthread_join` returns in the main thread. -/
  | joined
  /-- The thread starts with whatever its stack holds. -/
  | createProducer (msg : Msg) (counter : UInt64)
  | createConsumer (msg : Msg) (counter : UInt64)
  | removeProducer
  | removeConsumer

def Action.removes : Action → Bool
  | .removeProducer | .removeConsumer => true
  | _ => false

/-- `sem_wait`, before it takes the token, and `printf`, `fprintf` and `sleep`. The `fputs` of
`put_msg` on a full queue is one too, but a run is not followed past it. -/
def cancellationPoint : Pc → Bool
  | .producer .waitFreeSpace | .producer .printf | .producer .sleep => true
  | .consumer .waitItems | .consumer .fprintf | .consumer .printf | .consumer .sleep => true
  | _ => false

/-- `pthread_cancel` marks the thread. -/
def pthreadCancel (threads : List Thread) (tid : ℕ) : List Thread :=
  threads.modify tid fun th => { th with cancel := true }

def runThread (s : State) (tid : ℕ) (rnd : Rand) : Option State :=
  match s.threads[tid]? with
  | none => none
  | some th =>
      if th.terminated then none
      else
        match workerStep program tid rnd s.shared th.worker with
        | .blocked => none
        | .next sh w =>
            some { s with shared := sh, threads := s.threads.set tid { th with worker := w } }
        | .exit e => some { s with fault := some e }

def actOnCancel (s : State) (tid : ℕ) : Option State :=
  match s.threads[tid]? with
  | none => none
  | some th =>
      if th.cancel && !th.terminated && cancellationPoint th.worker.pc then
        some { s with threads := s.threads.set tid { th with terminated := true } }
      else none

def pthreadJoined (s : State) : Option State :=
  match s.joining with
  | none => none
  | some tid =>
      match s.threads[tid]? with
      | none => none
      | some th => if th.terminated then some { s with joining := none } else none

def createProducer (s : State) (msg : Msg) (counter : UInt64) : State :=
  if s.producers.length = childMax - 1 then s
  else
    { s with
      threads := s.threads ++ [⟨.producer msg counter, false, false⟩]
      producers := s.producers ++ [s.threads.length] }

def createConsumer (s : State) (msg : Msg) (counter : UInt64) : State :=
  if s.consumers.length = childMax - 1 then s
  else
    { s with
      threads := s.threads ++ [⟨.consumer msg counter, false, false⟩]
      consumers := s.consumers ++ [s.threads.length] }

def removeProducer (s : State) : State :=
  match s.producers.getLast? with
  | none => s
  | some tid =>
      { s with
        producers := s.producers.dropLast
        threads := pthreadCancel s.threads tid
        joining := some tid }

def removeConsumer (s : State) : State :=
  match s.consumers.getLast? with
  | none => s
  | some tid =>
      { s with
        consumers := s.consumers.dropLast
        threads := pthreadCancel s.threads tid
        joining := some tid }

/-- The main thread reads its next command once it is out of `pthread_join`. -/
def command (s : State) (t : State) : Option State :=
  if s.joining.isSome then none else some t

def step (s : State) (a : Action) : Option State :=
  if s.fault.isSome then none
  else
    match a with
    | .run tid rnd => runThread s tid rnd
    | .cancelled tid => actOnCancel s tid
    | .joined => pthreadJoined s
    | .createProducer msg counter => command s (createProducer s msg counter)
    | .createConsumer msg counter => command s (createConsumer s msg counter)
    | .removeProducer => command s (removeProducer s)
    | .removeConsumer => command s (removeConsumer s)

def State.workers (s : State) : List Worker := s.threads.map Thread.worker

/-! ## What a step can do -/

inductive Effect (s : State) (a : Action) (s' : State) : Prop where
  /-- A thread takes a step of its loop. -/
  | work (tid : ℕ) (rnd : Rand) (th : Thread) (sh : Shared (Option ℕ)) (w : Worker)
      (action : a = .run tid rnd) (at? : s.threads[tid]? = some th)
      (live : th.terminated = false)
      (next : workerStep program tid rnd s.shared th.worker = .next sh w)
      (shared : s'.shared = sh) (threads : s'.threads = s.threads.set tid { th with worker := w })
      (fault : s'.fault = s.fault)
  /-- A thread ends the program through an exit. -/
  | exit (tid : ℕ) (rnd : Rand) (th : Thread) (e : Fault)
      (action : a = .run tid rnd) (at? : s.threads[tid]? = some th)
      (live : th.terminated = false)
      (next : workerStep program tid rnd s.shared th.worker = .exit e)
      (shared : s'.shared = s.shared) (threads : s'.threads = s.threads)
      (fault : s'.fault = some e)
  /-- A thread terminates at a cancellation point. -/
  | terminate (tid : ℕ) (th : Thread) (at? : s.threads[tid]? = some th)
      (point : cancellationPoint th.worker.pc = true)
      (shared : s'.shared = s.shared)
      (threads : s'.threads = s.threads.set tid { th with terminated := true })
      (fault : s'.fault = s.fault)
  /-- A new thread at the start of its loop. -/
  | create (w : Worker)
      (start : w.pc = .producer .produceMsg ∨ w.pc = .consumer .waitItems)
      (shared : s'.shared = s.shared) (threads : s'.threads = s.threads ++ [⟨w, false, false⟩])
      (fault : s'.fault = s.fault)
  /-- A removal marks its victim. -/
  | cancel (tid : ℕ) (shared : s'.shared = s.shared)
      (threads : s'.threads = pthreadCancel s.threads tid) (fault : s'.fault = s.fault)
  /-- Only the main thread moves. -/
  | main (shared : s'.shared = s.shared) (threads : s'.threads = s.threads)
      (fault : s'.fault = s.fault)

theorem command_eq_some {s t s' : State} (h : command s t = some s') : s' = t := by
  unfold command at h
  split at h
  · cases h
  · exact (Option.some.inj h).symm

theorem step_effect {s s' : State} {a : Action} (h : step s a = some s') :
    s.fault = none ∧ Effect s a s' := by
  unfold step at h
  split at h
  · cases h
  · rename_i hfault
    refine ⟨by simpa using hfault, ?_⟩
    cases a with
    | run tid rnd =>
        simp only [runThread] at h
        split at h
        · cases h
        · rename_i th hth
          split at h
          · cases h
          · rename_i hlive
            have hlive : th.terminated = false := by simpa using hlive
            split at h
            · cases h
            · rename_i sh w hnext
              obtain rfl := Option.some.inj h
              exact .work tid rnd th sh w rfl hth hlive hnext rfl rfl rfl
            · rename_i e hexit
              obtain rfl := Option.some.inj h
              exact .exit tid rnd th e rfl hth hlive hexit rfl rfl rfl
    | cancelled tid =>
        simp only [actOnCancel] at h
        split at h
        · cases h
        · rename_i th hth
          split at h
          · rename_i hcond
            simp only [Bool.and_eq_true] at hcond
            obtain rfl := Option.some.inj h
            exact .terminate tid th hth hcond.2 rfl rfl rfl
          · cases h
    | joined =>
        simp only [pthreadJoined] at h
        split at h
        · cases h
        · split at h
          · cases h
          · split at h
            · obtain rfl := Option.some.inj h
              exact .main rfl rfl rfl
            · cases h
    | createProducer msg counter =>
        obtain rfl := command_eq_some h
        unfold createProducer
        split
        · exact .main rfl rfl rfl
        · exact .create (.producer msg counter) (.inl rfl) rfl rfl rfl
    | createConsumer msg counter =>
        obtain rfl := command_eq_some h
        unfold createConsumer
        split
        · exact .main rfl rfl rfl
        · exact .create (.consumer msg counter) (.inr rfl) rfl rfl rfl
    | removeProducer =>
        obtain rfl := command_eq_some h
        unfold removeProducer
        split
        · exact .main rfl rfl rfl
        · rename_i tid _
          exact .cancel tid rfl rfl rfl
    | removeConsumer =>
        obtain rfl := command_eq_some h
        unfold removeConsumer
        split
        · exact .main rfl rfl rfl
        · rename_i tid _
          exact .cancel tid rfl rfl rfl

/-! ## The accounts of all threads -/

theorem workers_pthreadCancel (threads : List Thread) (tid : ℕ) :
    (pthreadCancel threads tid).map Thread.worker = threads.map Thread.worker := by
  apply map_modify_eq
  intro th
  rfl

theorem workers_terminate {threads : List Thread} {tid : ℕ} {th : Thread}
    (h : threads[tid]? = some th) :
    (threads.set tid { th with terminated := true }).map Thread.worker =
      threads.map Thread.worker :=
  map_set_eq h rfl

theorem Effect.balanced {s s' : State} {a : Action} (he : Effect s a s')
    (hb : Balanced program s.shared s.workers) : Balanced program s'.shared s'.workers := by
  cases he with
  | work tid rnd th sh w action at? live next shared threads fault =>
      have hw : s.workers[tid]? = some th.worker := by simp [State.workers, at?]
      have hnew := hb.work hw next
      rw [State.workers, threads, shared, List.map_set]
      exact hnew
  | exit tid rnd th e action at? live next shared threads fault =>
      rw [State.workers, threads, shared]
      exact hb
  | terminate tid th at? point shared threads fault =>
      rw [State.workers, threads, shared, workers_terminate at?]
      exact hb
  | create w start shared threads fault =>
      rw [State.workers, threads, shared, List.map_append]
      exact hb.append start
  | cancel tid shared threads fault =>
      rw [State.workers, threads, shared, workers_pthreadCancel]
      exact hb
  | main shared threads fault =>
      rw [State.workers, threads, shared]
      exact hb

/-- The only exit ever taken is that of `put_msg` on a queue of `MSG_MAX - 1` messages. -/
theorem Effect.fault_cases {s s' : State} {a : Action} (he : Effect s a s')
    (hb : Balanced program s.shared s.workers) :
    s'.fault = s.fault ∨ s'.fault = some overflow ∧ ∃ tid rnd th, a = .run tid rnd ∧
      s.threads[tid]? = some th ∧ th.worker.pc = .producer .putMsg ∧
      s.shared.queue.msgAmount.toNat = msgMax - 1 := by
  cases he with
  | work tid rnd th sh w action at? live next shared threads fault => exact .inl fault
  | exit tid rnd th e action at? live next shared threads fault =>
      have hw : s.workers[tid]? = some th.worker := by simp [State.workers, at?]
      obtain ⟨hpc, hfull, rfl⟩ := hb.exit_full hw next
      exact .inr ⟨fault, tid, rnd, th, action, at?, hpc, hfull⟩
  | terminate tid th at? point shared threads fault => exact .inl fault
  | create w start shared threads fault => exact .inl fault
  | cancel tid shared threads fault => exact .inl fault
  | main shared threads fault => exact .inl fault

theorem balanced_start (memory : MsgQueue) :
    Balanced program (init memory).shared (init memory).workers :=
  balanced_init (represents_init memory).2 rfl rfl rfl

theorem balanced_of_reaches {allowed : State → Action → Prop} {memory : MsgQueue} {s : State}
    (h : Runs.Reaches step allowed (init memory) s) :
    Balanced program s.shared s.workers :=
  h.invariant (balanced_start memory) fun _ _ _ hu _ hstep => (step_effect hstep).2.balanced hu

end OsaspLabs.Lab5
