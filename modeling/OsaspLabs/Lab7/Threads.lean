import OsaspLabs.Lab7.Message
import OsaspLabs.Library.Lock
import OsaspLabs.Library.Runs

/-! # The threads of LAB_7 p1

The main thread is `threads[0]`. For the commands '+' and '-' it runs the body of the
producer's and of the consumer's loop itself. A thread that waits on a condition variable
is woken by a signal, spuriously, or by its cancellation; in each case it has to take the
mutex again, and a cancelled thread terminates once it has it. -/

namespace OsaspLabs.Lab7

open Ipc (Fault)

inductive Role where
  | producer
  | consumer
  deriving DecidableEq, Repr

inductive Pc where
  /-- The main thread reads its next command. -/
  | getchar
  /-- The test of '-' before it takes the mutex. -/
  | checkEmpty
  | produce
  | lock
  | test
  /-- About to call `pthread_cond_wait`. -/
  | wait
  /-- Blocked in `pthread_cond_wait`. -/
  | waiting
  /-- Woken in `pthread_cond_wait`. -/
  | reacquire
  /-- `add_msg` or `get_msg`. -/
  | access
  | signal
  | unlock
  | consume
  | fprintf
  | printf
  | sleep
  | infoLock
  | infoPrintf
  | infoUnlock
  /-- `pthread_join` of the thread `tid`. -/
  | join (tid : ℕ)
  /-- Cancelled in `pthread_cond_wait`. -/
  | cancelWait
  deriving DecidableEq, Repr

structure Thread where
  role : Role
  pc : Pc
  msg : Msg
  counter : ℤ
  /-- A cancellation is pending. -/
  cancel : Bool
  terminated : Bool

structure State where
  queue : MsgStruct
  mutex : Option ℕ
  threads : List Thread
  /-- `producers[0 .. producers_amount - 1]`, as positions in `threads`. -/
  producers : List ℕ
  consumers : List ℕ
  /-- The exit that a thread took inside a queue call; it ends the program. -/
  fault : Option Fault

/-- The state that `initialization` leaves: `memory` is the mapped object before it. -/
def init (memory : MsgStruct) : State where
  queue := initQueue memory
  mutex := none
  threads := [⟨.producer, .getchar, Msg.zero, 0, false, false⟩]
  producers := []
  consumers := []
  fault := none

/-- The commands whose code the main thread runs. -/
inductive Command where
  /-- The thread starts with whatever its stack holds. -/
  | createProducer (msg : Msg) (counter : ℤ)
  | removeProducer
  | createConsumer (msg : Msg) (counter : ℤ)
  | removeConsumer
  | info
  | plus
  | minus

inductive Action where
  /-- The thread `tid` takes its next step. -/
  | run (tid : ℕ) (rnd : Rand)
  /-- The thread `tid` signals and `woken` is the waiter that it wakes. -/
  | signal (tid : ℕ) (woken : Option ℕ)
  /-- A spurious wake-up. -/
  | wake (tid : ℕ)
  /-- The thread `tid` acts on its pending cancellation. -/
  | cancelled (tid : ℕ)
  /-- `pthread_join` returns in the main thread. -/
  | joined
  | command (c : Command)

inductive Outcome where
  | blocked
  | next (queue : MsgStruct) (mutex : Option ℕ) (th : Thread)
  | exit (fault : Fault)

/-- The condition of the `while` loop around `pthread_cond_wait`. -/
def mustWait (q : MsgStruct) : Role → Bool
  | .producer => q.messageAmount = msgMax
  | .consumer => q.messageAmount = 0

/-- The thread takes the mutex if it is free. -/
def lockMutex (self : ℕ) (q : MsgStruct) (m : Option ℕ) (th : Thread) : Outcome :=
  match Lock.mutex.acquire m self with
  | none => .blocked
  | some m' => .next q m' th

def unlockMutex (self : ℕ) (q : MsgStruct) (m : Option ℕ) (th : Thread) : Outcome :=
  .next q (Lock.mutex.release m self) th

def access (q : MsgStruct) (m : Option ℕ) (th : Thread) : Outcome :=
  match th.role with
  | .producer =>
      match addMsg q th.msg with
      | .error e => .exit e
      | .ok (n, q') => .next q' m { th with pc := .signal, counter := n }
  | .consumer =>
      match getMsg q with
      | .error e => .exit e
      | .ok (msg, n, q') => .next q' m { th with pc := .signal, msg := msg, counter := n }

/-- One step of the thread number `self`, apart from those that involve other threads. -/
def threadStep (self : ℕ) (rnd : Rand) (q : MsgStruct) (m : Option ℕ) (th : Thread) :
    Outcome :=
  match th.pc with
  | .getchar | .waiting | .signal | .join _ => .blocked
  | .checkEmpty =>
      .next q m { th with pc := if q.messageAmount = 0 then .printf else .lock }
  | .produce => .next q m { th with pc := .lock, msg := produce rnd th.msg }
  | .lock => lockMutex self q m { th with pc := .test }
  | .test => .next q m { th with pc := if mustWait q th.role then .wait else .access }
  | .wait => unlockMutex self q m { th with pc := .waiting }
  | .reacquire => lockMutex self q m { th with pc := .test }
  | .access => access q m th
  | .unlock =>
      unlockMutex self q m
        { th with
          pc := match th.role with
            | .producer => .printf
            | .consumer => .consume }
  | .consume => .next q m { th with pc := if consume th.msg then .fprintf else .printf }
  | .fprintf => .next q m { th with pc := .printf }
  | .printf => .next q m { th with pc := if self = 0 then .getchar else .sleep }
  | .sleep =>
      .next q m
        { th with
          pc := match th.role with
            | .producer => .produce
            | .consumer => .lock }
  | .infoLock => lockMutex self q m { th with pc := .infoPrintf }
  | .infoPrintf => .next q m { th with pc := .infoUnlock }
  | .infoUnlock => unlockMutex self q m { th with pc := .getchar }
  | .cancelWait => lockMutex self q m { th with terminated := true }

/-- Blocked on the condition variable of `role`. -/
def Thread.waitsOn (th : Thread) (role : Role) : Bool :=
  th.role = role && th.pc = .waiting && !th.terminated

/-- The condition variable that a thread signals. -/
def Role.signals : Role → Role
  | .producer => .consumer
  | .consumer => .producer

/-- `pthread_cond_wait` once it is entered, `printf`, `fprintf` and `sleep`. The `fputs` of
`add_msg` and `get_msg` is one too, but a run is not followed past it. -/
def cancellationPoint : Pc → Bool
  | .waiting | .fprintf | .printf | .sleep => true
  | _ => false

def runThread (s : State) (tid : ℕ) (rnd : Rand) : Option State :=
  match s.threads[tid]? with
  | none => none
  | some th =>
      if th.terminated then none
      else
        match threadStep tid rnd s.queue s.mutex th with
        | .blocked => none
        | .next q m th' =>
            some { s with queue := q, mutex := m, threads := s.threads.set tid th' }
        | .exit e => some { s with fault := some e }

/-- `pthread_cond_signal` wakes one of the waiters if there is one. -/
def signal (s : State) (tid : ℕ) (woken : Option ℕ) : Option State :=
  match s.threads[tid]? with
  | none => none
  | some th =>
      if th.terminated || th.pc != .signal then none
      else
        match woken with
        | none =>
            if s.threads.any fun v => v.waitsOn th.role.signals then none
            else some { s with threads := s.threads.set tid { th with pc := .unlock } }
        | some w =>
            match s.threads[w]? with
            | none => none
            | some v =>
                if v.waitsOn th.role.signals then
                  some
                    { s with
                      threads := (s.threads.set tid { th with pc := .unlock }).set w
                        { v with pc := .reacquire } }
                else none

def wake (s : State) (tid : ℕ) : Option State :=
  match s.threads[tid]? with
  | none => none
  | some th =>
      if th.terminated || th.pc != .waiting then none
      else some { s with threads := s.threads.set tid { th with pc := .reacquire } }

def actOnCancel (s : State) (tid : ℕ) : Option State :=
  match s.threads[tid]? with
  | none => none
  | some th =>
      if th.cancel && !th.terminated && cancellationPoint th.pc then
        let th' :=
          if th.pc = .waiting then { th with pc := .cancelWait } else { th with terminated := true }
        some { s with threads := s.threads.set tid th' }
      else none

def pthreadJoined (s : State) : Option State :=
  match s.threads[0]? with
  | none => none
  | some main =>
      match main.pc with
      | .join tid =>
          match s.threads[tid]? with
          | none => none
          | some th =>
              if th.terminated then
                some { s with threads := s.threads.set 0 { main with pc := .getchar } }
              else none
      | _ => none

/-- `pthread_cancel` marks the thread. -/
def pthreadCancel (threads : List Thread) (tid : ℕ) : List Thread :=
  threads.modify tid fun th => { th with cancel := true }

def createProducer (s : State) (msg : Msg) (counter : ℤ) : State :=
  if s.producers.length = childMax - 1 then s
  else
    { s with
      threads := s.threads ++ [⟨.producer, .produce, msg, counter, false, false⟩]
      producers := s.producers ++ [s.threads.length] }

def createConsumer (s : State) (msg : Msg) (counter : ℤ) : State :=
  if s.consumers.length = childMax - 1 then s
  else
    { s with
      threads := s.threads ++ [⟨.consumer, .lock, msg, counter, false, false⟩]
      consumers := s.consumers ++ [s.threads.length] }

def removeProducer (s : State) (main : Thread) : State :=
  match s.producers.getLast? with
  | none => s
  | some tid =>
      { s with
        producers := s.producers.dropLast
        threads := pthreadCancel (s.threads.set 0 { main with pc := .join tid }) tid }

def removeConsumer (s : State) (main : Thread) : State :=
  match s.consumers.getLast? with
  | none => s
  | some tid =>
      { s with
        consumers := s.consumers.dropLast
        threads := pthreadCancel (s.threads.set 0 { main with pc := .join tid }) tid }

/-- The main thread goes on with the code of its command. -/
def command (s : State) (main : Thread) : Command → State
  | .createProducer msg counter => createProducer s msg counter
  | .removeProducer => removeProducer s main
  | .createConsumer msg counter => createConsumer s msg counter
  | .removeConsumer => removeConsumer s main
  | .info => { s with threads := s.threads.set 0 { main with pc := .infoLock } }
  | .plus => { s with threads := s.threads.set 0 { main with role := .producer, pc := .produce } }
  | .minus =>
      { s with threads := s.threads.set 0 { main with role := .consumer, pc := .checkEmpty } }

def runCommand (s : State) (c : Command) : Option State :=
  match s.threads[0]? with
  | none => none
  | some main => if main.pc = .getchar then some (command s main c) else none

/-- A run is followed up to the first message of `add_msg` or `get_msg` on `stderr`, behind which
`exit` calls `atexit_handler` in that thread, and up to the first access behind `buffer`. -/
def step (s : State) (a : Action) : Option State :=
  if s.fault.isSome then none
  else
    match a with
    | .run tid rnd => runThread s tid rnd
    | .signal tid woken => signal s tid woken
    | .wake tid => wake s tid
    | .cancelled tid => actOnCancel s tid
    | .joined => pthreadJoined s
    | .command c => runCommand s c

/-! ## What a step can do -/

inductive Effect (s : State) (a : Action) (s' : State) : Prop where
  /-- A thread takes a step of its own. -/
  | work (tid : ℕ) (rnd : Rand) (th : Thread) (q : MsgStruct) (m : Option ℕ) (th' : Thread)
      (action : a = .run tid rnd) (at? : s.threads[tid]? = some th)
      (live : th.terminated = false)
      (next : threadStep tid rnd s.queue s.mutex th = .next q m th')
      (queue : s'.queue = q) (mutex : s'.mutex = m) (threads : s'.threads = s.threads.set tid th')
  /-- A thread ends the program through an exit. -/
  | exit (queue : s'.queue = s.queue) (mutex : s'.mutex = s.mutex)
      (threads : s'.threads = s.threads)
  /-- A thread goes on past its signal, and a waiter may wake. -/
  | signal (tid : ℕ) (th : Thread) (at? : s.threads[tid]? = some th)
      (pc : th.pc = .signal) (live : th.terminated = false)
      (queue : s'.queue = s.queue) (mutex : s'.mutex = s.mutex)
      (threads : ((∀ v ∈ s.threads, v.waitsOn th.role.signals = false) ∧
          s'.threads = s.threads.set tid { th with pc := .unlock }) ∨
        ∃ w v, s.threads[w]? = some v ∧ v.waitsOn th.role.signals = true ∧
          s'.threads = (s.threads.set tid { th with pc := .unlock }).set w
            { v with pc := .reacquire })
  /-- A waiter wakes by itself. -/
  | wake (tid : ℕ) (th : Thread) (at? : s.threads[tid]? = some th)
      (pc : th.pc = .waiting) (live : th.terminated = false)
      (queue : s'.queue = s.queue) (mutex : s'.mutex = s.mutex)
      (threads : s'.threads = s.threads.set tid { th with pc := .reacquire })
  /-- A waiter is cancelled. -/
  | cancelWait (tid : ℕ) (th : Thread) (action : a = .cancelled tid)
      (at? : s.threads[tid]? = some th)
      (pc : th.pc = .waiting) (live : th.terminated = false)
      (queue : s'.queue = s.queue) (mutex : s'.mutex = s.mutex)
      (threads : s'.threads = s.threads.set tid { th with pc := .cancelWait })
  /-- A thread terminates at another cancellation point. -/
  | terminate (tid : ℕ) (th : Thread) (at? : s.threads[tid]? = some th)
      (point : cancellationPoint th.pc = true) (pc : th.pc ≠ .waiting)
      (live : th.terminated = false) (queue : s'.queue = s.queue)
      (mutex : s'.mutex = s.mutex)
      (threads : s'.threads = s.threads.set tid { th with terminated := true })
  /-- A new thread at the start of its loop. -/
  | create (th : Thread) (start : th.pc = .produce ∨ th.pc = .lock)
      (live : th.terminated = false) (queue : s'.queue = s.queue)
      (mutex : s'.mutex = s.mutex)
      (threads : s'.threads = s.threads ++ [th])
  /-- The main thread goes from one place outside the critical section to another; a
  removal also marks its victim. -/
  | main (th : Thread) (th' : Thread) (at? : s.threads[0]? = some th)
      (pc : th.pc = .getchar ∨ ∃ tid, th.pc = .join tid)
      (pc' : th'.pc ∈ [.getchar, .infoLock, .produce, .checkEmpty] ∨ ∃ tid, th'.pc = .join tid)
      (live : th'.terminated = th.terminated) (queue : s'.queue = s.queue)
      (mutex : s'.mutex = s.mutex)
      (threads : s'.threads = s.threads.set 0 th' ∨
        ∃ tid, s'.threads = pthreadCancel (s.threads.set 0 th') tid)
  /-- A command that does nothing. -/
  | refuse (same : s' = s)

theorem runThread_effect {s s' : State} {tid : ℕ} {rnd : Rand}
    (h : runThread s tid rnd = some s') : Effect s (.run tid rnd) s' := by
  unfold runThread at h
  split at h
  · cases h
  · rename_i th hth
    split at h
    · cases h
    · rename_i hlive
      have hlive : th.terminated = false := by simpa using hlive
      split at h
      · cases h
      · rename_i q m th' hnext
        obtain rfl := Option.some.inj h
        exact .work tid rnd th q m th' rfl hth hlive hnext rfl rfl rfl
      · obtain rfl := Option.some.inj h
        exact .exit rfl rfl rfl

/-- The signalling thread goes on; a waiter wakes if there is one. -/
theorem signal_cases {s s' : State} {tid : ℕ} {woken : Option ℕ}
    (h : signal s tid woken = some s') :
    ∃ th, s.threads[tid]? = some th ∧ th.terminated = false ∧ th.pc = .signal ∧
      (((∀ v ∈ s.threads, v.waitsOn th.role.signals = false) ∧
          s' = { s with threads := s.threads.set tid { th with pc := .unlock } }) ∨
        ∃ w v, s.threads[w]? = some v ∧ v.waitsOn th.role.signals = true ∧
          s' = { s with
            threads := (s.threads.set tid { th with pc := .unlock }).set w
              { v with pc := .reacquire } }) := by
  unfold signal at h
  split at h
  · cases h
  · rename_i th hth
    split at h
    · cases h
    · rename_i hcond
      simp only [Bool.or_eq_true, not_or, Bool.not_eq_true, bne_eq_false_iff_eq] at hcond
      split at h
      · split at h
        · cases h
        · rename_i hnone
          simp only [List.any_eq_true, not_exists, not_and, Bool.not_eq_true] at hnone
          exact ⟨th, hth, hcond.1, hcond.2, .inl ⟨hnone, (Option.some.inj h).symm⟩⟩
      · split at h
        · cases h
        · rename_i w _ v hv
          split at h
          · rename_i hwaits
            exact ⟨th, hth, hcond.1, hcond.2,
              .inr ⟨w, v, hv, hwaits, (Option.some.inj h).symm⟩⟩
          · cases h

theorem signal_effect {s s' : State} {tid : ℕ} {woken : Option ℕ}
    (h : signal s tid woken = some s') : Effect s (.signal tid woken) s' := by
  obtain ⟨th, hth, hlive, hpc, hwoken⟩ := signal_cases h
  rcases hwoken with ⟨hnone, rfl⟩ | ⟨w, v, hv, hwaits, rfl⟩
  · exact .signal tid th hth hpc hlive rfl rfl (.inl ⟨hnone, rfl⟩)
  · exact .signal tid th hth hpc hlive rfl rfl (.inr ⟨w, v, hv, hwaits, rfl⟩)

/-- A thread leaves its wait without a signal. -/
theorem wake_cases {s s' : State} {tid : ℕ} (h : wake s tid = some s') :
    ∃ th, s.threads[tid]? = some th ∧ th.terminated = false ∧ th.pc = .waiting ∧
      s' = { s with threads := s.threads.set tid { th with pc := .reacquire } } := by
  unfold wake at h
  split at h
  · cases h
  · rename_i th hth
    split at h
    · cases h
    · rename_i hcond
      simp only [Bool.or_eq_true, not_or, Bool.not_eq_true, bne_eq_false_iff_eq] at hcond
      exact ⟨th, hth, hcond.1, hcond.2, (Option.some.inj h).symm⟩

/-- A cancelled thread stops at a cancellation point, or leaves its wait to do so. -/
theorem actOnCancel_cases {s s' : State} {tid : ℕ} (h : actOnCancel s tid = some s') :
    ∃ th, s.threads[tid]? = some th ∧ th.terminated = false ∧
      cancellationPoint th.pc = true ∧
      s' = { s with threads := s.threads.set tid (if th.pc = .waiting
        then { th with pc := .cancelWait } else { th with terminated := true }) } := by
  unfold actOnCancel at h
  split at h
  · cases h
  · rename_i th hth
    split at h
    · rename_i hcond
      simp only [Bool.and_eq_true, Bool.not_eq_true'] at hcond
      exact ⟨th, hth, hcond.1.2, hcond.2, (Option.some.inj h).symm⟩
    · cases h

theorem wake_effect {s s' : State} {tid : ℕ} (h : wake s tid = some s') :
    Effect s (.wake tid) s' := by
  obtain ⟨th, hth, hlive, hwaits, rfl⟩ := wake_cases h
  exact .wake tid th hth hwaits hlive rfl rfl rfl

theorem actOnCancel_effect {s s' : State} {tid : ℕ} (h : actOnCancel s tid = some s') :
    Effect s (.cancelled tid) s' := by
  obtain ⟨th, hth, hlive, hpoint, rfl⟩ := actOnCancel_cases h
  by_cases hpc : th.pc = .waiting
  · exact .cancelWait tid th rfl hth hpc hlive rfl rfl (by simp [hpc])
  · exact .terminate tid th hth hpoint hpc hlive rfl rfl (by simp [hpc])

theorem pthreadJoined_cases {s s' : State} (h : pthreadJoined s = some s') :
    ∃ main tid, s.threads[0]? = some main ∧ main.pc = .join tid ∧
      s' = { s with threads := s.threads.set 0 { main with pc := .getchar } } := by
  unfold pthreadJoined at h
  split at h
  · cases h
  · rename_i main hmain
    split at h
    · rename_i tid hpc
      split at h
      · cases h
      · split at h
        · exact ⟨main, tid, hmain, hpc, (Option.some.inj h).symm⟩
        · cases h
    · cases h

theorem pthreadJoined_effect {s s' : State} (h : pthreadJoined s = some s') :
    Effect s .joined s' := by
  obtain ⟨main, tid, hmain, hpc, rfl⟩ := pthreadJoined_cases h
  exact .main main { main with pc := .getchar } hmain (.inr ⟨tid, hpc⟩) (.inl (by simp)) rfl
    rfl rfl (.inl rfl)

theorem runCommand_effect {s s' : State} {c : Command} (h : runCommand s c = some s') :
    Effect s (.command c) s' := by
  unfold runCommand at h
  split at h
  · cases h
  · rename_i main hmain
    split at h
    · rename_i hpc
      obtain rfl := Option.some.inj h
      cases c with
      | createProducer msg counter =>
          simp only [command, createProducer]
          split
          · exact .refuse rfl
          · exact .create _ (.inl rfl) rfl rfl rfl rfl
      | createConsumer msg counter =>
          simp only [command, createConsumer]
          split
          · exact .refuse rfl
          · exact .create _ (.inr rfl) rfl rfl rfl rfl
      | removeProducer =>
          simp only [command, removeProducer]
          split
          · exact .refuse rfl
          · rename_i tid _
            exact .main main { main with pc := .join tid } hmain (.inl hpc) (.inr ⟨tid, rfl⟩) rfl
              rfl rfl (.inr ⟨tid, rfl⟩)
      | removeConsumer =>
          simp only [command, removeConsumer]
          split
          · exact .refuse rfl
          · rename_i tid _
            exact .main main { main with pc := .join tid } hmain (.inl hpc) (.inr ⟨tid, rfl⟩) rfl
              rfl rfl (.inr ⟨tid, rfl⟩)
      | info =>
          exact .main main { main with pc := .infoLock } hmain (.inl hpc) (.inl (by simp)) rfl rfl
            rfl (.inl rfl)
      | plus =>
          exact .main main { main with role := .producer, pc := .produce } hmain (.inl hpc)
            (.inl (by simp)) rfl rfl rfl (.inl rfl)
      | minus =>
          exact .main main { main with role := .consumer, pc := .checkEmpty } hmain (.inl hpc)
            (.inl (by simp)) rfl rfl rfl (.inl rfl)
    · cases h

theorem step_effect {s s' : State} {a : Action} (h : step s a = some s') : Effect s a s' := by
  unfold step at h
  split at h
  · cases h
  · cases a with
    | run tid rnd => exact runThread_effect h
    | signal tid woken => exact signal_effect h
    | wake tid => exact wake_effect h
    | cancelled tid => exact actOnCancel_effect h
    | joined => exact pthreadJoined_effect h
    | command c => exact runCommand_effect h

/-! ## The exits of a step -/

theorem signal_fault {s s' : State} {tid : ℕ} {woken : Option ℕ}
    (h : signal s tid woken = some s') : s'.fault = s.fault := by
  obtain ⟨th, -, -, -, hwoken⟩ := signal_cases h
  rcases hwoken with ⟨-, rfl⟩ | ⟨w, v, -, -, rfl⟩
  · rfl
  · rfl

theorem wake_fault {s s' : State} {tid : ℕ} (h : wake s tid = some s') :
    s'.fault = s.fault := by
  obtain ⟨th, -, -, -, rfl⟩ := wake_cases h
  rfl

theorem actOnCancel_fault {s s' : State} {tid : ℕ} (h : actOnCancel s tid = some s') :
    s'.fault = s.fault := by
  obtain ⟨th, -, -, -, rfl⟩ := actOnCancel_cases h
  rfl

theorem pthreadJoined_fault {s s' : State} (h : pthreadJoined s = some s') :
    s'.fault = s.fault := by
  obtain ⟨main, tid, -, -, rfl⟩ := pthreadJoined_cases h
  rfl

theorem command_fault (s : State) (main : Thread) (c : Command) :
    (command s main c).fault = s.fault := by
  cases c with
  | createProducer msg counter =>
      simp only [command, createProducer]
      split <;> rfl
  | removeProducer =>
      simp only [command, removeProducer]
      split <;> rfl
  | createConsumer msg counter =>
      simp only [command, createConsumer]
      split <;> rfl
  | removeConsumer =>
      simp only [command, removeConsumer]
      split <;> rfl
  | info => rfl
  | plus => rfl
  | minus => rfl

theorem runCommand_fault {s s' : State} {c : Command} (h : runCommand s c = some s') :
    s'.fault = s.fault := by
  unfold runCommand at h
  split at h
  · cases h
  · split at h <;> cases h
    exact command_fault s _ c

/-- Only a thread in `add_msg` or `get_msg` ends the program. -/
theorem step_fault {s s' : State} {a : Action} (h : step s a = some s') :
    s'.fault = none ∨ ∃ tid rnd th e, a = .run tid rnd ∧ s.threads[tid]? = some th ∧
      threadStep tid rnd s.queue s.mutex th = .exit e ∧ s'.fault = some e := by
  unfold step at h
  split at h
  · cases h
  · rename_i hfault
    have hnone : s.fault = none := by simpa using hfault
    cases a with
    | run tid rnd =>
        simp only [runThread] at h
        split at h
        · cases h
        · rename_i th hth
          split at h
          · cases h
          · split at h
            · cases h
            · obtain rfl := Option.some.inj h
              exact .inl hnone
            · rename_i e hexit
              obtain rfl := Option.some.inj h
              exact .inr ⟨tid, rnd, th, e, rfl, hth, hexit, rfl⟩
    | signal tid woken => exact .inl ((signal_fault h).trans hnone)
    | wake tid => exact .inl ((wake_fault h).trans hnone)
    | cancelled tid => exact .inl ((actOnCancel_fault h).trans hnone)
    | joined => exact .inl ((pthreadJoined_fault h).trans hnone)
    | command c => exact .inl ((runCommand_fault h).trans hnone)

theorem lockMutex_ne_exit {self : ℕ} {q : MsgStruct} {m : Option ℕ} {th : Thread} {e : Fault} :
    lockMutex self q m th ≠ .exit e := by
  unfold lockMutex
  split <;> simp

/-- Only `add_msg` and `get_msg` have an exit. -/
theorem threadStep_exit {self : ℕ} {rnd : Rand} {q : MsgStruct} {m : Option ℕ} {th : Thread}
    {e : Fault} (h : threadStep self rnd q m th = .exit e) :
    th.pc = .access ∧ access q m th = .exit e := by
  cases hpc : th.pc <;> simp only [threadStep, hpc] at h
  case lock | reacquire | infoLock | cancelWait => exact absurd h lockMutex_ne_exit
  case access => exact ⟨rfl, h⟩
  all_goals cases h

theorem access_exit {q : MsgStruct} {m : Option ℕ} {th : Thread} {e : Fault}
    (h : access q m th = .exit e) :
    (th.role = .producer ∧ addMsg q th.msg = .error e) ∨
      (th.role = .consumer ∧ getMsg q = .error e) := by
  unfold access at h
  cases hrole : th.role with
  | producer =>
      simp only [hrole] at h
      split at h
      · rename_i hadd
        cases h
        exact .inl ⟨rfl, hadd⟩
      · cases h
  | consumer =>
      simp only [hrole] at h
      split at h
      · rename_i hget
        cases h
        exact .inr ⟨rfl, hget⟩
      · cases h

/-! ## The counters of the queue -/

theorem threadStep_counted {self : ℕ} {rnd : Rand} {q q' : MsgStruct} {m m' : Option ℕ}
    {th th' : Thread} (hq : Counted q) (h : threadStep self rnd q m th = .next q' m' th') :
    Counted q' := by
  cases hpc : th.pc <;> simp only [threadStep, hpc] at h
  case getchar | waiting | signal | join => cases h
  case lock | reacquire | infoLock | cancelWait =>
    unfold lockMutex at h
    split at h
    · cases h
    · cases h
      exact hq
  case access =>
    unfold access at h
    split at h
    · split at h
      · cases h
      · rename_i hadd
        cases h
        exact addMsg_counted hq hadd
    · split at h
      · cases h
      · rename_i hget
        cases h
        exact getMsg_counted hq hget
  all_goals
    cases h
    exact hq

/-- In every run the counters stay within `MSG_MAX`, as the type of the queue takes for
granted. -/
theorem counted_of_reaches {allowed : State → Action → Prop} {memory : MsgStruct} {s : State}
    (h : Runs.Reaches step allowed (init memory) s) : Counted s.queue := by
  refine h.invariant (I := fun u => Counted u.queue) (counted_initQueue memory)
    fun u a v hu _ hstep => ?_
  cases step_effect hstep with
  | work tid rnd th q m th' action at? live next queue mutex threads =>
      rw [queue]
      exact threadStep_counted hu next
  | exit queue => exact queue ▸ hu
  | signal _ _ _ _ _ queue => exact queue ▸ hu
  | wake _ _ _ _ _ queue => exact queue ▸ hu
  | cancelWait _ _ _ _ _ _ queue => exact queue ▸ hu
  | terminate _ _ _ _ _ _ queue => exact queue ▸ hu
  | create _ _ _ queue => exact queue ▸ hu
  | main _ _ _ _ _ _ queue => exact queue ▸ hu
  | refuse same => exact same ▸ hu

end OsaspLabs.Lab7
