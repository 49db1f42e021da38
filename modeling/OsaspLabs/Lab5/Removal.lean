import OsaspLabs.Lab5.Threads

/-! # Removing threads in LAB_5

Every cancellation point of the two loops lies outside the span between the semaphore
operations, so a cancelled thread takes nothing with it. -/

namespace OsaspLabs.Lab5

open Ipc Runs

/-- Slots held by the threads that have not terminated. -/
def heldByLive (threads : List Thread) : ℕ :=
  tally (fun th => (!th.terminated && th.worker.pc.holdsSlot).toNat) threads

theorem workerStep_handover {self : ℕ} {rnd : Rand} {sh sh' : Shared (Option ℕ)}
    {w w' : Worker} (h : workerStep program self rnd sh w = .next sh' w') :
    Lock.Handover self sh.mutex w.pc.inCriticalSection sh'.mutex w'.pc.inCriticalSection := by
  unfold workerStep at h
  split at h
  · rename_i pc hpc
    rw [hpc]
    cases pc <;> simp only [producerStep] at h
    case lock =>
      split at h
      · cases h
      · rename_i m hm
        obtain ⟨hfree, rfl⟩ := Lock.mutex_acquire hm
        obtain ⟨rfl, rfl⟩ := Outcome.next.inj h
        exact .take hfree rfl rfl
    case unlock =>
      obtain ⟨rfl, rfl⟩ := Outcome.next.inj h
      exact .drop rfl rfl rfl
    all_goals try split at h
    all_goals cases h <;> exact .keep rfl rfl
  · rename_i pc hpc
    rw [hpc]
    cases pc <;> simp only [consumerStep] at h
    case lock =>
      split at h
      · cases h
      · rename_i m hm
        obtain ⟨hfree, rfl⟩ := Lock.mutex_acquire hm
        obtain ⟨rfl, rfl⟩ := Outcome.next.inj h
        exact .take hfree rfl rfl
    case unlock =>
      obtain ⟨rfl, rfl⟩ := Outcome.next.inj h
      exact .drop rfl rfl rfl
    case consumeMsg =>
      obtain ⟨rfl, rfl⟩ := Outcome.next.inj h
      refine .keep rfl ?_
      cases (consumeMsg w.msg).2 <;> rfl
    all_goals try split at h
    all_goals cases h <;> exact .keep rfl rfl

/-- Threads in the critical section own the mutex, and the terminated ones stopped at a
cancellation point. -/
structure Owned (s : State) : Prop where
  balanced : Balanced program s.shared s.workers
  owner : Lock.OwnedBy s.shared.mutex (s.workers.map fun w => w.pc.inCriticalSection)
  stopped : ∀ th ∈ s.threads, th.terminated = true → cancellationPoint th.worker.pc = true

theorem holdsSlot_of_cancellationPoint {pc : Pc} (h : cancellationPoint pc = true) :
    pc.holdsSlot = false ∧ pc.inCriticalSection = false := by
  rcases pc with pc | pc <;> cases pc <;> first | exact ⟨rfl, rfl⟩ | cases h

theorem Owned.init (memory : MsgQueue) : Owned (init memory) where
  balanced := balanced_start memory
  owner := by
    intro tid
    simp [Lab5.init, State.workers]
  stopped := by simp [Lab5.init]

/-- The mutex changes hands only in the steps of the threads themselves. -/
theorem Effect.owner {s s' : State} {a : Action} (he : Effect s a s')
    (ho : Lock.OwnedBy s.shared.mutex (s.workers.map fun w => w.pc.inCriticalSection)) :
    Lock.OwnedBy s'.shared.mutex (s'.workers.map fun w => w.pc.inCriticalSection) := by
  cases he with
  | work tid rnd th sh w action at? live next shared threads fault =>
      have hflag : (s.workers.map fun w => w.pc.inCriticalSection)[tid]? =
          some th.worker.pc.inCriticalSection := by simp [State.workers, at?]
      have hnew := ho.handover hflag (workerStep_handover next)
      rw [State.workers, threads, shared, List.map_set, List.map_set]
      exact hnew
  | exit tid rnd th e action at? live next shared threads fault =>
      rw [State.workers, threads, shared]
      exact ho
  | terminate tid th at? point shared threads fault =>
      rw [State.workers, threads, shared, workers_terminate at?]
      exact ho
  | create w start shared threads fault =>
      have hfree : w.pc.inCriticalSection = false := by
        rcases start with hpc | hpc <;> rw [hpc] <;> rfl
      rw [State.workers, threads, shared, List.map_append, List.map_append, List.map_singleton,
        List.map_singleton, hfree]
      exact ho.append
  | cancel tid shared threads fault =>
      rw [State.workers, threads, shared, workers_pthreadCancel]
      exact ho
  | main shared threads fault =>
      rw [State.workers, threads, shared]
      exact ho

/-- Threads terminate at cancellation points only. -/
theorem Effect.stopped {s s' : State} {a : Action} (he : Effect s a s')
    (hs : ∀ th ∈ s.threads, th.terminated = true → cancellationPoint th.worker.pc = true) :
    ∀ th ∈ s'.threads, th.terminated = true → cancellationPoint th.worker.pc = true := by
  cases he with
  | work tid rnd th sh w action at? live next shared threads fault =>
      rw [threads]
      exact forall_mem_set hs fun hterm => by simp [live] at hterm
  | exit tid rnd th e action at? live next shared threads fault => exact threads ▸ hs
  | terminate tid th at? point shared threads fault =>
      rw [threads]
      exact forall_mem_set hs fun _ => point
  | create w start shared threads fault =>
      rw [threads]
      exact List.forall_mem_append.mpr ⟨hs, by simp⟩
  | cancel tid shared threads fault =>
      rw [threads]
      exact forall_mem_modify hs fun _ _ hv => hv
  | main shared threads fault => exact threads ▸ hs

theorem Owned.step {s s' : State} {a : Action} (ho : Owned s) (he : Effect s a s') :
    Owned s' where
  balanced := he.balanced ho.balanced
  owner := he.owner ho.owner
  stopped := he.stopped ho.stopped

theorem owned_of_reaches {memory : MsgQueue} {s : State}
    (h : Reaches step anything (init memory) s) : Owned s :=
  h.invariant (Owned.init memory) fun _ _ _ hu _ hstep => hu.step (step_effect hstep).2

/-- A locked mutex has an owner in the critical section. -/
theorem Owned.mutex_owner {s : State} (ho : Owned s) {tid : ℕ}
    (hmutex : s.shared.mutex = some tid) :
    ∃ th, s.threads[tid]? = some th ∧ th.worker.pc.inCriticalSection = true := by
  have hflag := (ho.owner tid).mp hmutex
  simpa [State.workers] using hflag

theorem Owned.heldByLive_eq {s : State} (ho : Owned s) :
    heldByLive s.threads = count Pc.holdsSlot s.workers := by
  simp only [heldByLive, count, tally, State.workers, List.map_map]
  congr 1
  refine List.map_congr_left fun th hth => ?_
  cases hterm : th.terminated with
  | false => rfl
  | true =>
      have hpoint := holdsSlot_of_cancellationPoint (ho.stopped th hth hterm)
      simp [hpoint.1]

/-- In every run of the threads, the commands and the cancellations, the mutex is never
owned by a terminated thread and no slot is lost. -/
theorem thread_removal_safe (memory : MsgQueue) (s : State)
    (h : Reaches step anything (init memory) s) :
    (∀ tid, s.shared.mutex = some tid →
      ∃ th, s.threads[tid]? = some th ∧ th.terminated = false) ∧
      s.shared.freeSpace + s.shared.items + heldByLive s.threads = msgMax := by
  have ho := owned_of_reaches h
  refine ⟨fun tid hmutex => ?_, ?_⟩
  · obtain ⟨th, hth, hcs⟩ := ho.mutex_owner hmutex
    refine ⟨th, hth, ?_⟩
    cases hterm : th.terminated with
    | false => rfl
    | true =>
        have hpoint := holdsSlot_of_cancellationPoint
          (ho.stopped th (List.mem_of_getElem? hth) hterm)
        rw [hpoint.2] at hcs
        cases hcs
  · rw [ho.heldByLive_eq]
    exact ho.balanced.slots_held

/-- A producer puts one message and is then removed in its `sleep`. -/
def putAndRemove : List Action :=
  .createProducer Msg.zero 0 :: List.replicate 7 (.run 0 noRand) ++
    [.removeProducer, .cancelled 0, .joined]

theorem thread_removal_safe_putAndRemove :
    ∃ s, exec step (init zeroMemory) putAndRemove = some s ∧
      s.shared.freeSpace + s.shared.items + heldByLive s.threads = msgMax := by
  have hrun : ∃ s, exec step (init zeroMemory) putAndRemove = some s := ⟨_, rfl⟩
  obtain ⟨s, hs⟩ := hrun
  exact ⟨s, hs, (thread_removal_safe zeroMemory s (reaches_anything_of_exec hs)).2⟩

end OsaspLabs.Lab5
