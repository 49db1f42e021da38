import OsaspLabs.Ipc.Delivery
import OsaspLabs.Lab4.Processes
import OsaspLabs.Library.Traces

/-! # LAB_4 statement by statement

A process may be killed between any two statements of a queue call. It then holds the semaphore
`mutex` for ever, so no other process ever sees the queue that it left half changed. -/

namespace OsaspLabs.Lab4

open Ipc Runs

structure FineState where
  base : State
  /-- How far each process inside a queue call has come. -/
  calls : ℕ → Option Call

def fineInit (memory : MsgQueue) : FineState := ⟨init memory, fun _ => none⟩

def fineRun (s : FineState) (pid : ℕ) (rnd : Rand) : Option FineState :=
  match s.base.procs[pid]? with
  | none => none
  | some p =>
      if p.live then
        match fineWorkerStep program pid rnd s.base.shared p.worker (s.calls pid) with
        | .blocked => none
        | .next sh w call _ =>
            some
              { base := { s.base with shared := sh, procs := s.base.procs.set pid ⟨w, true⟩ }
                calls := Function.update s.calls pid call }
        | .exit e => some { s with base := exitChild s.base pid e }
      else none

def fineStep (s : FineState) : Action → Option FineState
  | .run pid rnd => fineRun s pid rnd
  | a => (step s.base a).map fun base => { s with base }

/-- The queue calls that return in a step. -/
def shows (s : State) : Action → List Event
  | .run pid _ =>
      match s.procs[pid]? with
      | none => []
      | some p => workerEvents pid s.shared p.worker
  | _ => []

def fineShows (s : FineState) : Action → List Event
  | .run pid rnd =>
      match s.base.procs[pid]? with
      | none => []
      | some p =>
          match fineWorkerStep program pid rnd s.base.shared p.worker (s.calls pid) with
          | .next _ _ _ events => events
          | _ => []
  | _ => []

/-- The state with another queue. -/
def State.withQueue (s : State) (q : MsgQueue) : State := { s with shared := s.shared.withQueue q }

/-- The state `c` of the processes with whole calls that `s` stands for: the queue is as the
calls that have returned left it. -/
structure Behind (s : FineState) (c : State) : Prop where
  balanced : Balanced program c.shared c.workers
  state : ∃ q₀, c = s.base.withQueue q₀ ∧
    InCall q₀ s.base.shared.queue s.base.workers s.calls

theorem behind_init (memory : MsgQueue) : Behind (fineInit memory) (init memory) where
  balanced := balanced_start memory
  state := ⟨(init memory).shared.queue, rfl, ⟨nofun, fun _ => rfl⟩⟩

/-! ## Each statement keeps what is behind the calls -/

/-- A command of the parent does not touch the queue. -/
structure Command (c : State → State) (s : State) : Prop where
  behind : ∀ q, c (s.withQueue q) = (c s).withQueue q
  shared : (c s).shared = s.shared
  workers : ∃ vs, (c s).workers = s.workers ++ vs ∧ ∀ v ∈ vs, v.Starts

theorem command_createProducer (s : State) (msg : Msg) (counter : UInt64) :
    Command (fun s => createProducer s msg counter) s := by
  by_cases hmax : s.producers.length = childMax - 1
  · have hsame : createProducer s msg counter = s := if_pos hmax
    refine ⟨fun q => ?_, ?_, [], ?_⟩
    · rw [hsame]
      exact if_pos hmax
    · rw [hsame]
    · rw [hsame, List.append_nil]
      exact ⟨rfl, by simp⟩
  · have hnew : createProducer s msg counter = _ := if_neg hmax
    refine ⟨fun q => ?_, ?_, [.producer msg counter], ?_⟩
    · rw [hnew]
      exact if_neg hmax
    · rw [hnew]
    · rw [hnew]
      exact ⟨List.map_append, by simp [Worker.Starts, Worker.producer]⟩

theorem command_createConsumer (s : State) (msg : Msg) (counter : UInt64) :
    Command (fun s => createConsumer s msg counter) s := by
  by_cases hmax : s.consumers.length = childMax - 1
  · have hsame : createConsumer s msg counter = s := if_pos hmax
    refine ⟨fun q => ?_, ?_, [], ?_⟩
    · rw [hsame]
      exact if_pos hmax
    · rw [hsame]
    · rw [hsame, List.append_nil]
      exact ⟨rfl, by simp⟩
  · have hnew : createConsumer s msg counter = _ := if_neg hmax
    refine ⟨fun q => ?_, ?_, [.consumer msg counter], ?_⟩
    · rw [hnew]
      exact if_neg hmax
    · rw [hnew]
    · rw [hnew]
      exact ⟨List.map_append, by simp [Worker.Starts, Worker.consumer]⟩

theorem command_removeProducer (s : State) : Command removeProducer s := by
  cases hlast : s.producers.getLast? with
  | none =>
      have hsame : ∀ q, removeProducer (s.withQueue q) = s.withQueue q := fun q => by
        simp [removeProducer, State.withQueue, hlast]
      have hself : removeProducer s = s := by simp [removeProducer, hlast]
      exact ⟨fun q => by rw [hsame, hself], by rw [hself], [],
        by rw [hself, List.append_nil], by simp⟩
  | some pid =>
      have hkill : removeProducer s =
          { s with producers := s.producers.dropLast, procs := kill s.procs pid } := by
        simp [removeProducer, hlast]
      refine ⟨fun q => ?_, by rw [hkill], [], ?_⟩
      · simp [removeProducer, State.withQueue, hlast]
      · rw [hkill, List.append_nil]
        exact ⟨workers_kill s.procs pid, by simp⟩

theorem command_removeConsumer (s : State) : Command removeConsumer s := by
  cases hlast : s.consumers.getLast? with
  | none =>
      have hsame : ∀ q, removeConsumer (s.withQueue q) = s.withQueue q := fun q => by
        simp [removeConsumer, State.withQueue, hlast]
      have hself : removeConsumer s = s := by simp [removeConsumer, hlast]
      exact ⟨fun q => by rw [hsame, hself], by rw [hself], [],
        by rw [hself, List.append_nil], by simp⟩
  | some pid =>
      have hkill : removeConsumer s =
          { s with consumers := s.consumers.dropLast, procs := kill s.procs pid } := by
        simp [removeConsumer, hlast]
      refine ⟨fun q => ?_, by rw [hkill], [], ?_⟩
      · simp [removeConsumer, State.withQueue, hlast]
      · rw [hkill, List.append_nil]
        exact ⟨workers_kill s.procs pid, by simp⟩

/-- What the parent does is a command that it takes while it runs. -/
theorem step_command {s : State} {a : Action} (hrun : ∀ pid rnd, a ≠ .run pid rnd) :
    ∃ c : State → State, Command c s ∧
      ∀ u : State, step u a = if u.parent then some (c u) else none := by
  cases a with
  | run pid rnd => exact absurd rfl (hrun pid rnd)
  | createProducer msg counter => exact ⟨_, command_createProducer s msg counter, fun _ => rfl⟩
  | createConsumer msg counter => exact ⟨_, command_createConsumer s msg counter, fun _ => rfl⟩
  | removeProducer => exact ⟨_, command_removeProducer s, fun _ => rfl⟩
  | removeConsumer => exact ⟨_, command_removeConsumer s, fun _ => rfl⟩

theorem step_withQueue {s s' : State} {a : Action} (hrun : ∀ pid rnd, a ≠ .run pid rnd)
    (h : step s a = some s') (q : MsgQueue) :
    step (s.withQueue q) a = some (s'.withQueue q) ∧ s'.shared = s.shared ∧
      ∃ vs, s'.workers = s.workers ++ vs ∧ ∀ v ∈ vs, v.Starts := by
  obtain ⟨c, hc, hstep⟩ := step_command (s := s) hrun
  rw [hstep] at h
  split at h
  · rename_i hparent
    obtain rfl := Option.some.inj h
    have hparent' : (s.withQueue q).parent = true := hparent
    rw [hstep, if_pos hparent', hc.behind]
    exact ⟨rfl, hc.shared, hc.workers⟩
  · cases h

theorem Behind.run {s s' : FineState} {c : State} {pid : ℕ} {rnd : Rand} (h : Behind s c)
    (hstep : fineRun s pid rnd = some s') :
    ∃ c', Traced step shows c (fineShows s (.run pid rnd)) c' ∧ Behind s' c' := by
  obtain ⟨hb, q₀, rfl, hin⟩ := h
  simp only [fineRun] at hstep
  split at hstep
  · cases hstep
  · rename_i p hp
    split at hstep
    · rename_i hlive
      have hw : s.base.workers[pid]? = some p.worker := by simp [State.workers, hp]
      have hprocs : (s.base.withQueue q₀).procs[pid]? = some p := hp
      have hwb : (s.base.withQueue q₀).workers[pid]? = some p.worker := hw
      simp only [fineShows, hp]
      split at hstep
      · cases hstep
      · rename_i sh w call events hnext
        obtain rfl := Option.some.inj hstep
        rw [hnext]
        cases fineWorkerStep_effect hb hin hw hnext with
        | inside worker shared shows ok =>
            have hsame : (s.base.procs.set pid ⟨w, true⟩).map Proc.worker = s.base.workers :=
              map_set_eq hp worker
            have hset : s.base.procs.set pid ⟨w, true⟩ = s.base.procs := by
              have heq : p = ⟨w, true⟩ := by
                rw [worker, ← hlive]
              obtain ⟨hlt, hget⟩ := List.getElem?_eq_some_iff.mp hp
              rw [← heq, ← hget, List.set_getElem_self]
            refine ⟨s.base.withQueue q₀, ?_, hb, q₀, ?_, ?_⟩
            · show Traced step Lab4.shows (s.base.withQueue q₀) events _
              rw [shows]
              exact .refl
            · simp only [State.withQueue, shared, hset]
            · rw [State.workers, hsame]
              exact ok
        | step q₁ next shows ok =>
            have hstep : step (s.base.withQueue q₀) (.run pid rnd) = some
                ({ s.base with shared := sh, procs := s.base.procs.set pid ⟨w, true⟩ }.withQueue
                  q₁) := by
              simp only [step, runProc, hprocs, hlive, if_true]
              rw [show workerStep program pid rnd (s.base.withQueue q₀).shared p.worker =
                .next (sh.withQueue q₁) w from next]
              rfl
            have hshows : events = Lab4.shows (s.base.withQueue q₀) (.run pid rnd) := by
              simp only [Lab4.shows, hprocs]
              exact shows
            refine ⟨_, ?_, (step_effect hstep).balanced hb, q₁, rfl, ?_⟩
            · show Traced step Lab4.shows (s.base.withQueue q₀) events _
              rw [hshows]
              exact .single hstep
            · rw [State.workers, List.map_set]
              exact ok
      · rename_i e hexit
        obtain rfl := Option.some.inj hstep
        rw [hexit]
        have hcoarse := fineWorkerStep_exit hb hin hw hexit
        have hstep : step (s.base.withQueue q₀) (.run pid rnd) = some
            ((exitChild s.base pid e).withQueue q₀) := by
          simp only [step, runProc, hprocs, hlive, if_true]
          rw [show workerStep program pid rnd (s.base.withQueue q₀).shared p.worker = .exit e
            from hcoarse]
          rfl
        have hshows : Lab4.shows (s.base.withQueue q₀) (.run pid rnd) = [] := by
          simp only [Lab4.shows, hprocs]
          exact workerEvents_of_exit hcoarse
        refine ⟨_, ?_, (step_effect hstep).balanced hb, q₀, rfl, ?_⟩
        · show Traced step Lab4.shows (s.base.withQueue q₀) [] _
          rw [← hshows]
          exact .single hstep
        · rw [State.workers, exitChild, workers_kill]
          exact hin
    · cases hstep

theorem Behind.step {s s' : FineState} {c : State} {a : Action} (h : Behind s c)
    (hstep : fineStep s a = some s') :
    ∃ c', Traced step shows c (fineShows s a) c' ∧ Behind s' c' := by
  by_cases hrun : ∃ pid rnd, a = .run pid rnd
  · obtain ⟨pid, rnd, rfl⟩ := hrun
    exact h.run hstep
  · have hrun : ∀ pid rnd, a ≠ .run pid rnd := fun pid rnd ha => hrun ⟨pid, rnd, ha⟩
    obtain ⟨hb, q₀, rfl, hin⟩ := h
    have hbase : ∃ base, Lab4.step s.base a = some base ∧ s' = { s with base } ∧
        fineShows s a = [] ∧ shows (s.base.withQueue q₀) a = [] := by
      cases a with
      | run pid rnd => exact absurd rfl (hrun pid rnd)
      | createProducer | createConsumer | removeProducer | removeConsumer =>
          obtain ⟨base, hbase, rfl⟩ := Option.map_eq_some_iff.mp hstep
          exact ⟨base, hbase, rfl, rfl, rfl⟩
    obtain ⟨base, hbase, rfl, hfine, hcoarse⟩ := hbase
    obtain ⟨hbehind, hshared, vs, hvs, -⟩ := step_withQueue hrun hbase q₀
    refine ⟨base.withQueue q₀, ?_, (step_effect hbehind).balanced hb, q₀, rfl, ?_⟩
    · rw [hfine, ← hcoarse]
      exact .single hbehind
    · show InCall q₀ base.shared.queue base.workers s.calls
      rw [hshared, hvs]
      exact hin.more vs

/-! ## Every run -/

theorem hashed_produceMsg (rnd : Rand) (msg : Msg) : Hashed (program.produceMsg rnd msg) :=
  produceMsg_hash rnd msg

theorem soundRun_init (memory : MsgQueue) :
    SoundRun [] (init memory).shared (init memory).workers where
  delivered := ⟨_, Delivered.init (represents_init memory).1 rfl rfl⟩
  sent _ h := by cases h
  workers _ h := by cases h

theorem soundRun_step {es : List Event} {s s' : State} {a : Action}
    (h : SoundRun es s.shared s.workers) (hstep : step s a = some s') :
    SoundRun (es ++ shows s a) s'.shared s'.workers := by
  by_cases hrun : ∃ pid rnd, a = .run pid rnd
  · obtain ⟨pid, rnd, rfl⟩ := hrun
    simp only [step, runProc] at hstep
    split at hstep
    · cases hstep
    · rename_i p hp
      have hw : s.workers[pid]? = some p.worker := by simp [State.workers, hp]
      simp only [shows, hp]
      split at hstep
      · split at hstep
        · cases hstep
        · rename_i sh w hnext
          obtain rfl := Option.some.inj hstep
          rw [State.workers, List.map_set]
          exact SoundRun.step hashed_produceMsg h hw hnext
        · rename_i e hexit
          obtain rfl := Option.some.inj hstep
          rw [workerEvents_of_exit hexit, List.append_nil, State.workers, exitChild, workers_kill]
          exact h
      · cases hstep
  · have hrun : ∀ pid rnd, a ≠ .run pid rnd := fun pid rnd ha => hrun ⟨pid, rnd, ha⟩
    obtain ⟨-, hshared, vs, hvs, hstart⟩ := step_withQueue hrun hstep s.shared.queue
    have hshows : shows s a = [] := by
      cases a with
      | run pid rnd => exact absurd rfl (hrun pid rnd)
      | createProducer | createConsumer | removeProducer | removeConsumer => rfl
    rw [hshows, List.append_nil, hshared, hvs]
    exact h.more hstart

/-- Statement by statement, with processes killed between any two of them: the messages come
out in the order in which they went in, none twice and none left out, and no consumer reports a
checksum. -/
theorem delivered_in_order {memory : MsgQueue} {es : List Event} {s : FineState}
    (h : Traced fineStep fineShows (fineInit memory) es s) :
    InOrder es ∧ (∀ m ∈ received es, Hashed m) ∧
      ∀ w ∈ s.base.workers, w.pc ≠ .consumer .fprintf := by
  obtain ⟨c, hrun, hbehind⟩ := h.simulate (behind_init memory) fun _ _ _ _ hu hstep => hu.step hstep
  have hsound : SoundRun es c.shared c.workers := hrun.invariant
    (I := fun es u => SoundRun es u.shared u.workers) (soundRun_init memory)
    fun _ _ _ _ hu hstep => soundRun_step hu hstep
  obtain ⟨f, hd⟩ := hsound.delivered
  obtain ⟨-, q₀, rfl, -⟩ := hbehind
  refine ⟨hd.inOrder, fun m hm => hsound.sent m (hd.received_sent hm), fun w hw hpc => ?_⟩
  have hfalse := hsound.workers w hw
  rw [Worker.Sound, hpc] at hfalse
  exact hfalse

/-- One message goes through; its sender is killed inside its next call. -/
theorem delivered_in_order_one :
    ∃ es s, Traced fineStep fineShows (fineInit zeroMemory) es s ∧ (received es).length = 1 ∧
      InOrder es := by
  have hrun : ∃ es s, trace fineStep fineShows (fineInit zeroMemory)
      ([.createProducer Msg.zero 0, .createConsumer Msg.zero 0] ++
        List.replicate 11 (.run 0 noRand) ++ List.replicate 8 (.run 1 noRand) ++
        [.run 1 noRand] ++ List.replicate 8 (.run 0 noRand) ++ [.removeProducer]) =
      some (es, s) ∧ (received es).length = 1 := ⟨_, _, rfl, rfl⟩
  obtain ⟨es, s, htrace, hlen⟩ := hrun
  exact ⟨es, s, .of_trace htrace, hlen, (delivered_in_order (.of_trace htrace)).1⟩

end OsaspLabs.Lab4
