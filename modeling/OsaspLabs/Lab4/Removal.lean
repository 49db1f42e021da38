import OsaspLabs.Lab4.Processes

/-! # Removing processes in LAB_4

A process killed between its two semaphore operations keeps its slot for ever, and the
semaphore `mutex` with it when it was inside the critical section. -/

namespace OsaspLabs.Lab4

open Ipc Runs

/-- Slots held by the processes that are alive, or by those that are dead. -/
def heldBy (live : Bool) (procs : List Proc) : ℕ :=
  tally (fun p => (p.live == live && p.worker.pc.holdsSlot).toNat) procs

/-- A taken `mutex` has a live holder, and no slot is lost. -/
structure SafeState (s : State) : Prop where
  mutex_held : s.shared.mutex = 0 → ∃ (pid : ℕ) (p : Proc), s.procs[pid]? = some p ∧ p.live = true ∧
    p.worker.pc.inCriticalSection = true
  no_slot_lost : s.shared.freeSpace + s.shared.items + heldBy true s.procs = msgMax

/-- No dead process stopped between its two semaphore operations. -/
def NoneStranded (s : State) : Prop :=
  ∀ p ∈ s.procs, p.live = false → p.worker.pc.holdsSlot = false

/-- A removal meets its victim outside the span between its semaphore operations, and no
producer puts into a queue of `MSG_MAX - 1` messages. -/
def Harmless (s : State) (a : Action) : Prop :=
  (∀ pid p, victim s a = some pid → s.procs[pid]? = some p →
    p.worker.pc.holdsSlot = false) ∧
  ∀ pid rnd p, a = .run pid rnd → s.procs[pid]? = some p →
    p.worker.pc = .producer .putMsg → s.shared.queue.msgAmount.toNat ≠ msgMax - 1

theorem heldBy_add (procs : List Proc) :
    heldBy true procs + heldBy false procs = count Pc.holdsSlot (procs.map Proc.worker) := by
  induction procs with
  | nil => rfl
  | cons p procs ih =>
      have hp : (p.live == true && p.worker.pc.holdsSlot).toNat +
          (p.live == false && p.worker.pc.holdsSlot).toNat = p.worker.pc.holdsSlot.toNat := by
        cases p.live <;> cases p.worker.pc.holdsSlot <;> rfl
      simp only [heldBy, count, List.map_cons, tally_cons] at ih ⊢
      omega

theorem heldBy_false_eq_zero {procs : List Proc} :
    heldBy false procs = 0 ↔ ∀ p ∈ procs, p.live = false → p.worker.pc.holdsSlot = false := by
  induction procs with
  | nil => simp [heldBy]
  | cons p procs ih =>
      simp only [heldBy] at ih
      simp only [heldBy, tally_cons, Nat.add_eq_zero_iff, ih, List.forall_mem_cons]
      cases hl : p.live <;> cases hp : p.worker.pc.holdsSlot <;> simp

/-- A taken `mutex` was taken by some process, live or dead. -/
theorem exists_holder {s : State} (hb : Balanced program s.shared s.workers)
    (hmutex : s.shared.mutex = 0) :
    ∃ (pid : ℕ) (p : Proc), s.procs[pid]? = some p ∧
      p.worker.pc.inCriticalSection = true := by
  by_contra hnone
  have hzero : count Pc.inCriticalSection s.workers = 0 := by
    apply List.sum_eq_zero
    intro n hn
    obtain ⟨w, hw, rfl⟩ := List.mem_map.mp hn
    obtain ⟨p, hp, rfl⟩ := List.mem_map.mp hw
    obtain ⟨pid, hpid⟩ := List.mem_iff_getElem?.mp hp
    cases hcs : p.worker.pc.inCriticalSection with
    | false => rfl
    | true => exact absurd ⟨pid, p, hpid, hcs⟩ hnone
  have hm := hb.mutex
  have hfree : program.lock.free s.shared.mutex = 0 := hmutex
  omega

/-- What the dead processes hold is exactly what is lost. -/
theorem safeState_iff {s : State} (hb : Balanced program s.shared s.workers) :
    SafeState s ↔ NoneStranded s := by
  have hslots := hb.slots_held
  have hsplit := heldBy_add s.procs
  simp only [State.workers] at hslots
  constructor
  · intro h
    have hlost := h.no_slot_lost
    exact heldBy_false_eq_zero.mp (by omega)
  · intro h
    have hzero := heldBy_false_eq_zero.mpr h
    refine ⟨fun hmutex => ?_, by omega⟩
    obtain ⟨pid, p, hp, hcs⟩ := exists_holder hb hmutex
    refine ⟨pid, p, hp, ?_, hcs⟩
    cases hlive : p.live with
    | true => rfl
    | false =>
        have hheld := h p (List.mem_of_getElem? hp) hlive
        rw [holdsSlot_of_inCriticalSection hcs] at hheld
        cases hheld

theorem Effect.noneStranded {s s' : State} {a : Action} (he : Effect s a s')
    (hb : Balanced program s.shared s.workers) (hok : Harmless s a) (hn : NoneStranded s) :
    NoneStranded s' := by
  unfold NoneStranded at hn ⊢
  cases he with
  | work pid rnd p sh w action at? live next shared procs fault =>
      rw [procs]
      exact forall_mem_set hn nofun
  | exit pid rnd p e action at? live next shared procs fault =>
      have hw : s.workers[pid]? = some p.worker := by simp [State.workers, at?]
      obtain ⟨hpc, hfull, _⟩ := hb.exit_full hw next
      exact absurd hfull (hok.2 pid rnd p action at? hpc)
  | fork w start spares shared procs fault =>
      rw [procs]
      exact List.forall_mem_append.mpr ⟨hn, by simp⟩
  | kill pid action shared procs fault =>
      rw [procs]
      exact forall_mem_modify hn fun p hp _ _ => hok.1 pid p action hp
  | refuse same => exact same ▸ hn

theorem noneStranded_of_reaches {memory : MsgQueue} {s : State}
    (h : Reaches step Harmless (init memory) s) : NoneStranded s := by
  have hinv := h.invariant (I := fun u => Balanced program u.shared u.workers ∧ NoneStranded u)
    ⟨balanced_start memory, by simp [NoneStranded, init]⟩
    fun u a v hu hok hstep =>
      ⟨(step_effect hstep).balanced hu.1, (step_effect hstep).noneStranded hu.1 hok hu.2⟩
  exact hinv.2

/-- Removal is safe exactly as long as it strands no process; a run in which it never
meets a process between its semaphore operations stays safe. -/
theorem process_removal_safe_iff (memory : MsgQueue) (s : State) :
    (Reaches step anything (init memory) s → (SafeState s ↔ NoneStranded s)) ∧
      (Reaches step Harmless (init memory) s → SafeState s) :=
  ⟨fun h => safeState_iff (balanced_of_reaches h),
    fun h => (safeState_iff (balanced_of_reaches h)).mpr (noneStranded_of_reaches h)⟩

/-- A producer is removed right after its `sem_wait(mutex)`. -/
def killHolder : List Action :=
  [.createProducer Msg.zero 0, .run 0 noRand, .run 0 noRand, .run 0 noRand, .removeProducer]

theorem removal_of_holder_unsafe :
    ∃ s, Reaches step anything (init zeroMemory) s ∧ s.fault = none ∧
      ¬ (s.shared.mutex = 0 → ∃ (pid : ℕ) (p : Proc), s.procs[pid]? = some p ∧ p.live = true ∧
        p.worker.pc.inCriticalSection = true) ∧
      ¬ s.shared.freeSpace + s.shared.items + heldBy true s.procs = msgMax := by
  have hrun : ∃ s, exec step (init zeroMemory) killHolder = some s ∧ s.fault = none ∧
      s.shared.mutex = 0 ∧ s.procs.map Proc.live = [false] ∧
      s.shared.freeSpace + s.shared.items + heldBy true s.procs = msgMax - 1 :=
    ⟨_, rfl, rfl, rfl, rfl, rfl⟩
  obtain ⟨s, hexec, hfault, hmutex, hlive, hslots⟩ := hrun
  refine ⟨s, reaches_anything_of_exec hexec, hfault, fun h => ?_, fun h => ?_⟩
  · obtain ⟨pid, p, hp, hl, _⟩ := h hmutex
    have hmem : true ∈ s.procs.map Proc.live :=
      hl ▸ List.mem_map_of_mem (List.mem_of_getElem? hp)
    rw [hlive] at hmem
    simp at hmem
  · rw [hslots] at h
    exact absurd h (by decide)

/-- A producer is removed in its `sleep`. -/
def killSleeper : List Action :=
  .createProducer Msg.zero 0 :: List.replicate 7 (.run 0 noRand) ++ [.removeProducer]

theorem process_removal_safe_iff_sleeper :
    (∃ s, exec step (init zeroMemory) killSleeper = some s ∧ (SafeState s ↔ NoneStranded s)) ∧
      ∃ s, step (init zeroMemory) (.createProducer Msg.zero 0) = some s ∧ SafeState s := by
  constructor
  · have hrun : ∃ s, exec step (init zeroMemory) killSleeper = some s := ⟨_, rfl⟩
    obtain ⟨s, hs⟩ := hrun
    exact ⟨s, hs, (process_removal_safe_iff zeroMemory s).1 (reaches_anything_of_exec hs)⟩
  · have hharmless : Harmless (init zeroMemory) (.createProducer Msg.zero 0) :=
      ⟨nofun, nofun⟩
    exact ⟨_, rfl, (process_removal_safe_iff zeroMemory _).2 (.single ⟨_, hharmless, rfl⟩)⟩

end OsaspLabs.Lab4
