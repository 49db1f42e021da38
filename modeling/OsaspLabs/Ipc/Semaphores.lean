import OsaspLabs.Lab4.Processes
import OsaspLabs.Lab5.Threads

/-! # What the semaphores of LAB_4 and LAB_5 guarantee

Both programs start from the same balanced state, so the accounts hold in all their runs. -/

namespace OsaspLabs.Ipc

open Runs

/-- The accounts of a state in terms of what the participants have done. -/
structure Accounts {L : Type} (sh : Shared L) (ws : List Worker) : Prop where
  exclusive : ∀ (i j : ℕ) (v w : Worker), ws[i]? = some v → ws[j]? = some w →
    v.pc.inCriticalSection = true → w.pc.inCriticalSection = true → i = j
  messages : sh.queue.msgAmount.toNat =
    sh.items + count Pc.aboutToPostItems ws + count Pc.aboutToGet ws
  slots : sh.freeSpace + sh.queue.msgAmount.toNat + count Pc.aboutToPut ws +
    count Pc.aboutToPostFreeSpace ws = msgMax
  no_underflow : ∀ (i : ℕ) (w : Worker), ws[i]? = some w → w.pc = .consumer .getMsg →
    getMsg sh.queue ≠ .error underflow

theorem Balanced.accounts {L : Type} {prog : Program L} {sh : Shared L} {ws : List Worker}
    (hb : Balanced prog sh ws) : Accounts sh ws where
  exclusive _ _ _ _ hi hj hv hw := hb.exclusive hi hj hv hw
  messages := hb.items
  slots := hb.slots
  no_underflow i w hi hpc := by
    obtain ⟨m, n, q, hget⟩ := hb.getMsg_ok hi hpc
    rw [hget]
    exact nofun

/-- What the two programs have in common: participants with a queue, whose steps keep the accounts
and take no exit but that of `put_msg` on `MSG_MAX - 1` messages. -/
structure System (L σ α : Type) where
  program : Program L
  step : σ → α → Option σ
  init : MsgQueue → σ
  shared : σ → Shared L
  workers : σ → List Worker
  fault : σ → Option Fault
  /-- The participant that takes a step. -/
  runs : α → Option ℕ
  starts : ∀ memory, Balanced program (shared (init memory)) (workers (init memory)) ∧
    fault (init memory) = none
  balanced_step : ∀ {s s' : σ} {a : α}, step s a = some s' →
    Balanced program (shared s) (workers s) → Balanced program (shared s') (workers s')
  fault_step : ∀ {s s' : σ} {a : α}, step s a = some s' →
    Balanced program (shared s) (workers s) → fault s' = fault s ∨
      fault s' = some overflow ∧ ∃ i w, runs a = some i ∧ (workers s)[i]? = some w ∧
        w.pc = .producer .putMsg ∧ (shared s).queue.msgAmount.toNat = msgMax - 1

def lab4 : System ℕ Lab4.State Lab4.Action where
  program := Lab4.program
  step := Lab4.step
  init := Lab4.init
  shared := Lab4.State.shared
  workers := Lab4.State.workers
  fault := Lab4.State.fault
  runs
    | .run pid _ => some pid
    | _ => none
  starts memory := ⟨Lab4.balanced_start memory, rfl⟩
  balanced_step hstep hb := (Lab4.step_effect hstep).balanced hb
  fault_step hstep hb := by
    rcases (Lab4.step_effect hstep).fault_cases hb with
      hsame | ⟨hover, pid, rnd, p, rfl, hat, hpc, hfull⟩
    · exact .inl hsame
    · exact .inr ⟨hover, pid, p.worker, rfl, by simp [Lab4.State.workers, hat], hpc, hfull⟩

def lab5 : System (Option ℕ) Lab5.State Lab5.Action where
  program := Lab5.program
  step := Lab5.step
  init := Lab5.init
  shared := Lab5.State.shared
  workers := Lab5.State.workers
  fault := Lab5.State.fault
  runs
    | .run tid _ => some tid
    | _ => none
  starts memory := ⟨Lab5.balanced_start memory, rfl⟩
  balanced_step hstep hb := (Lab5.step_effect hstep).2.balanced hb
  fault_step hstep hb := by
    rcases (Lab5.step_effect hstep).2.fault_cases hb with
      hsame | ⟨hover, tid, rnd, th, rfl, hat, hpc, hfull⟩
    · exact .inl hsame
    · exact .inr ⟨hover, tid, th.worker, rfl, by simp [Lab5.State.workers, hat], hpc, hfull⟩

section System

variable {L σ α : Type} {sys : System L σ α} {allowed : σ → α → Prop} {memory : MsgQueue} {s : σ}

theorem System.balanced_of_reaches (h : Reaches sys.step allowed (sys.init memory) s) :
    Balanced sys.program (sys.shared s) (sys.workers s) :=
  h.invariant (sys.starts memory).1 fun _ _ _ hu _ hstep => sys.balanced_step hstep hu

theorem System.fault_of_reaches (h : Reaches sys.step allowed (sys.init memory) s) :
    sys.fault s = none ∨ sys.fault s = some overflow := by
  have hinv := h.invariant
    (I := fun u => Reaches sys.step allowed (sys.init memory) u ∧
      (sys.fault u = none ∨ sys.fault u = some overflow))
    ⟨.refl, .inl (sys.starts memory).2⟩
    fun u a v hu hallowed hstep => by
      refine ⟨hu.1.tail ⟨a, hallowed, hstep⟩, ?_⟩
      rcases sys.fault_step hstep (System.balanced_of_reaches hu.1) with hsame | ⟨hover, -⟩
      · exact hsame ▸ hu.2
      · exact .inr hover
  exact hinv.2

theorem System.accounts_of_reaches (h : Reaches sys.step allowed (sys.init memory) s) :
    Accounts (sys.shared s) (sys.workers s) ∧ sys.fault s ≠ some underflow := by
  refine ⟨(System.balanced_of_reaches h).accounts, ?_⟩
  have hne : some overflow ≠ some underflow := by decide
  rcases System.fault_of_reaches h with hnone | hover
  · rw [hnone]
    exact nofun
  · rw [hover]
    exact hne

end System

/-- Participants may be created at any time; without removals the accounts hold in every
state of either program, so no `get_msg` underflows. -/
theorem semaphore_accounts (memory : MsgQueue) :
    (∀ s, Reaches Lab4.step (fun _ a => a.removes = false) (Lab4.init memory) s →
      Accounts s.shared s.workers ∧ s.fault ≠ some underflow) ∧
    (∀ s, Reaches Lab5.step (fun _ a => a.removes = false) (Lab5.init memory) s →
      Accounts s.shared s.workers ∧ s.fault ≠ some underflow) := by
  exact ⟨fun _ h => lab4.accounts_of_reaches h, fun _ h => lab5.accounts_of_reaches h⟩

/-- A message goes in; the consumer has taken its token of `items` and the mutex, and the producer
has taken the next slot. -/
def underWay {α : Type} (createProducer createConsumer : α) (run : ℕ → α) : List α :=
  [createProducer, createConsumer] ++ List.replicate 8 (run 0) ++ List.replicate 2 (run 1) ++
    List.replicate 2 (run 0)

theorem semaphore_accounts_under_way :
    (∃ s, exec Lab4.step (Lab4.init zeroMemory) (underWay (.createProducer Msg.zero 0)
        (.createConsumer Msg.zero 0) fun pid => .run pid noRand) = some s ∧
      s.shared.items = 0 ∧ s.shared.queue.msgAmount = 1 ∧ Accounts s.shared s.workers) ∧
    ∃ s, exec Lab5.step (Lab5.init zeroMemory) (underWay (.createProducer Msg.zero 0)
        (.createConsumer Msg.zero 0) fun tid => .run tid noRand) = some s ∧
      s.shared.items = 0 ∧ s.shared.queue.msgAmount = 1 ∧ Accounts s.shared s.workers := by
  obtain ⟨hlab4, hlab5⟩ := semaphore_accounts zeroMemory
  constructor
  · have hrun : ∃ s, exec Lab4.step (Lab4.init zeroMemory) (underWay (.createProducer Msg.zero 0)
        (.createConsumer Msg.zero 0) fun pid => .run pid noRand) = some s ∧
        s.shared.items = 0 ∧ s.shared.queue.msgAmount = 1 := ⟨_, rfl, rfl, rfl⟩
    obtain ⟨s, hexec, hitems, hamount⟩ := hrun
    have hreach : Reaches Lab4.step (fun _ a => a.removes = false) (Lab4.init zeroMemory) s :=
      reaches_of_exec (by simp [underWay, Lab4.Action.removes]) hexec
    exact ⟨s, hexec, hitems, hamount, (hlab4 s hreach).1⟩
  · have hrun : ∃ s, exec Lab5.step (Lab5.init zeroMemory) (underWay (.createProducer Msg.zero 0)
        (.createConsumer Msg.zero 0) fun tid => .run tid noRand) = some s ∧
        s.shared.items = 0 ∧ s.shared.queue.msgAmount = 1 := ⟨_, rfl, rfl, rfl⟩
    obtain ⟨s, hexec, hitems, hamount⟩ := hrun
    have hreach : Reaches Lab5.step (fun _ a => a.removes = false) (Lab5.init zeroMemory) s :=
      reaches_of_exec (by simp [underWay, Lab5.Action.removes]) hexec
    exact ⟨s, hexec, hitems, hamount, (hlab5 s hreach).1⟩

end OsaspLabs.Ipc
