import OsaspLabs.Ipc.Accounting
import OsaspLabs.Library.Runs

/-! # The processes of LAB_4

The parent forks producers and consumers and removes the last one of its kind by
`SIGKILL`, at whatever step that process has reached. A dead process stays in the
list, frozen, so that what it held can still be counted. -/

namespace OsaspLabs.Lab4

open Ipc

/-- `produce_msg`: the hash is taken over the message that still carries its old hash. -/
def produceMsg (rnd : Rand) (msg : Msg) : Msg :=
  let filled := fillMsg rnd msg
  { filled with hash := hash filled }

/-- The semaphore `mutex` is the lock. -/
def program : Program ℕ where
  lock := Lock.semaphore
  produceMsg := produceMsg

structure Proc where
  worker : Worker
  live : Bool

structure State where
  shared : Shared ℕ
  /-- Every process forked so far, in the order of `fork`. -/
  procs : List Proc
  /-- `producers[0 .. producers_amount - 1]`, as positions in `procs`. -/
  producers : List ℕ
  consumers : List ℕ
  /-- Whether the parent, which reads the commands, still runs. -/
  parent : Bool
  /-- The last exit that a process took inside a queue call. -/
  fault : Option Fault

/-- The state that `init` leaves: `memory` is the mapped object before it. -/
def init (memory : MsgQueue) : State where
  shared := ⟨msgQueueInit memory, 1, msgMax, 0⟩
  procs := []
  producers := []
  consumers := []
  parent := true
  fault := none

inductive Action where
  /-- The process `pid` takes its next step. -/
  | run (pid : ℕ) (rnd : Rand)
  /-- The child starts with whatever its stack holds. -/
  | createProducer (msg : Msg) (counter : UInt64)
  | createConsumer (msg : Msg) (counter : UInt64)
  | removeProducer
  | removeConsumer

def Action.removes : Action → Bool
  | .removeProducer | .removeConsumer => true
  | _ => false

def kill (procs : List Proc) (pid : ℕ) : List Proc :=
  procs.modify pid fun p => { p with live := false }

/-- A child that exits runs `atexit_handler`, which kills the parent. Its siblings go on:
unlinking the names takes nothing from a process that has the objects open. -/
def exitChild (s : State) (pid : ℕ) (e : Fault) : State :=
  { s with procs := kill s.procs pid, parent := false, fault := some e }

def runProc (s : State) (pid : ℕ) (rnd : Rand) : Option State :=
  match s.procs[pid]? with
  | none => none
  | some p =>
      if p.live then
        match workerStep program pid rnd s.shared p.worker with
        | .blocked => none
        | .next sh w => some { s with shared := sh, procs := s.procs.set pid ⟨w, true⟩ }
        | .exit e => some (exitChild s pid e)
      else none

def createProducer (s : State) (msg : Msg) (counter : UInt64) : State :=
  if s.producers.length = childMax - 1 then s
  else
    { s with
      procs := s.procs ++ [⟨.producer msg counter, true⟩]
      producers := s.producers ++ [s.procs.length] }

def createConsumer (s : State) (msg : Msg) (counter : UInt64) : State :=
  if s.consumers.length = childMax - 1 then s
  else
    { s with
      procs := s.procs ++ [⟨.consumer msg counter, true⟩]
      consumers := s.consumers ++ [s.procs.length] }

def removeProducer (s : State) : State :=
  match s.producers.getLast? with
  | none => s
  | some pid => { s with producers := s.producers.dropLast, procs := kill s.procs pid }

def removeConsumer (s : State) : State :=
  match s.consumers.getLast? with
  | none => s
  | some pid => { s with consumers := s.consumers.dropLast, procs := kill s.procs pid }

def step (s : State) : Action → Option State
  | .run pid rnd => runProc s pid rnd
  | .createProducer msg counter => if s.parent then some (createProducer s msg counter) else none
  | .createConsumer msg counter => if s.parent then some (createConsumer s msg counter) else none
  | .removeProducer => if s.parent then some (removeProducer s) else none
  | .removeConsumer => if s.parent then some (removeConsumer s) else none

def State.workers (s : State) : List Worker := s.procs.map Proc.worker

/-! ## What a step can do -/

/-- The process that a removal would kill. -/
def victim (s : State) : Action → Option ℕ
  | .removeProducer => s.producers.getLast?
  | .removeConsumer => s.consumers.getLast?
  | _ => none

inductive Effect (s : State) (a : Action) (s' : State) : Prop where
  /-- A live process takes a step of its loop. -/
  | work (pid : ℕ) (rnd : Rand) (p : Proc) (sh : Shared ℕ) (w : Worker)
      (action : a = .run pid rnd) (at? : s.procs[pid]? = some p) (live : p.live = true)
      (next : workerStep program pid rnd s.shared p.worker = .next sh w)
      (shared : s'.shared = sh) (procs : s'.procs = s.procs.set pid ⟨w, true⟩)
      (fault : s'.fault = s.fault)
  /-- A live process leaves through an exit. -/
  | exit (pid : ℕ) (rnd : Rand) (p : Proc) (e : Fault)
      (action : a = .run pid rnd) (at? : s.procs[pid]? = some p) (live : p.live = true)
      (next : workerStep program pid rnd s.shared p.worker = .exit e)
      (shared : s'.shared = s.shared) (procs : s'.procs = kill s.procs pid)
      (fault : s'.fault = some e)
  /-- A new process at the start of its loop. -/
  | fork (w : Worker)
      (start : w.pc = .producer .produceMsg ∨ w.pc = .consumer .waitItems)
      (spares : victim s a = none)
      (shared : s'.shared = s.shared) (procs : s'.procs = s.procs ++ [⟨w, true⟩])
      (fault : s'.fault = s.fault)
  /-- A removal kills its victim. -/
  | kill (pid : ℕ) (action : victim s a = some pid)
      (shared : s'.shared = s.shared) (procs : s'.procs = kill s.procs pid)
      (fault : s'.fault = s.fault)
  /-- A command that finds its table full or empty. -/
  | refuse (same : s' = s)

theorem step_effect {s s' : State} {a : Action} (h : step s a = some s') : Effect s a s' := by
  cases a with
  | run pid rnd =>
      simp only [step, runProc] at h
      split at h
      · cases h
      · rename_i p hp
        split at h
        · rename_i hlive
          split at h
          · cases h
          · rename_i sh w hnext
            obtain rfl := Option.some.inj h
            exact .work pid rnd p sh w rfl hp hlive hnext rfl rfl rfl
          · rename_i e hexit
            obtain rfl := Option.some.inj h
            exact .exit pid rnd p e rfl hp hlive hexit rfl rfl rfl
        · cases h
  | createProducer msg counter =>
      simp only [step, createProducer] at h
      split at h
      · split at h
        · exact .refuse (Option.some.inj h).symm
        · obtain rfl := Option.some.inj h
          exact .fork (.producer msg counter) (.inl rfl) rfl rfl rfl rfl
      · cases h
  | createConsumer msg counter =>
      simp only [step, createConsumer] at h
      split at h
      · split at h
        · exact .refuse (Option.some.inj h).symm
        · obtain rfl := Option.some.inj h
          exact .fork (.consumer msg counter) (.inr rfl) rfl rfl rfl rfl
      · cases h
  | removeProducer =>
      simp only [step, removeProducer] at h
      split at h
      · split at h
        · exact .refuse (Option.some.inj h).symm
        · rename_i pid hpid
          obtain rfl := Option.some.inj h
          exact .kill pid hpid rfl rfl rfl
      · cases h
  | removeConsumer =>
      simp only [step, removeConsumer] at h
      split at h
      · split at h
        · exact .refuse (Option.some.inj h).symm
        · rename_i pid hpid
          obtain rfl := Option.some.inj h
          exact .kill pid hpid rfl rfl rfl
      · cases h

/-! ## The accounts of all processes, live and dead -/

theorem workers_kill (procs : List Proc) (pid : ℕ) :
    (kill procs pid).map Proc.worker = procs.map Proc.worker := by
  apply map_modify_eq
  intro p
  rfl

theorem Effect.balanced {s s' : State} {a : Action} (he : Effect s a s')
    (hb : Balanced program s.shared s.workers) : Balanced program s'.shared s'.workers := by
  cases he with
  | work pid rnd p sh w action at? live next shared procs fault =>
      have hp : s.workers[pid]? = some p.worker := by simp [State.workers, at?]
      have hnew := hb.work hp next
      rw [State.workers, procs, shared, List.map_set]
      exact hnew
  | exit pid rnd p e action at? live next shared procs fault =>
      rw [State.workers, procs, shared, workers_kill]
      exact hb
  | fork w start spares shared procs fault =>
      rw [State.workers, procs, shared, List.map_append]
      exact hb.append start
  | kill pid action shared procs fault =>
      rw [State.workers, procs, shared, workers_kill]
      exact hb
  | refuse same => exact same ▸ hb

/-- The only exit ever taken is that of `put_msg` on a queue of `MSG_MAX - 1` messages. -/
theorem Effect.fault_cases {s s' : State} {a : Action} (he : Effect s a s')
    (hb : Balanced program s.shared s.workers) :
    s'.fault = s.fault ∨ s'.fault = some overflow ∧ ∃ pid rnd p, a = .run pid rnd ∧
      s.procs[pid]? = some p ∧ p.worker.pc = .producer .putMsg ∧
      s.shared.queue.msgAmount.toNat = msgMax - 1 := by
  cases he with
  | work pid rnd p sh w action at? live next shared procs fault => exact .inl fault
  | exit pid rnd p e action at? live next shared procs fault =>
      have hw : s.workers[pid]? = some p.worker := by simp [State.workers, at?]
      obtain ⟨hpc, hfull, rfl⟩ := hb.exit_full hw next
      exact .inr ⟨fault, pid, rnd, p, action, at?, hpc, hfull⟩
  | fork w start spares shared procs fault => exact .inl fault
  | kill pid action shared procs fault => exact .inl fault
  | refuse same => exact .inl (congrArg State.fault same)

theorem balanced_start (memory : MsgQueue) :
    Balanced program (init memory).shared (init memory).workers :=
  balanced_init (represents_init memory).1 rfl rfl rfl

theorem balanced_of_reaches {allowed : State → Action → Prop} {memory : MsgQueue} {s : State}
    (h : Runs.Reaches step allowed (init memory) s) :
    Balanced program s.shared s.workers :=
  h.invariant (balanced_start memory) fun _ _ _ hu _ hstep => (step_effect hstep).balanced hu

end OsaspLabs.Lab4
