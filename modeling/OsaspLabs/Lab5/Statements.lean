import OsaspLabs.Ipc.Delivery
import OsaspLabs.Lab5.Removal
import OsaspLabs.Library.Traces

/-! # LAB_5 statement by statement

A thread acts on a cancellation only outside the mutex, so a queue call that has begun is
finished by its thread. -/

namespace OsaspLabs.Lab5

open Ipc Runs

structure FineState where
  base : State
  /-- How far each thread inside a queue call has come. -/
  calls : ℕ → Option Call

def fineInit (memory : MsgQueue) : FineState := ⟨init memory, fun _ => none⟩

def fineRun (s : FineState) (tid : ℕ) (rnd : Rand) : Option FineState :=
  match s.base.threads[tid]? with
  | none => none
  | some th =>
      if th.terminated then none
      else
        match fineWorkerStep program tid rnd s.base.shared th.worker (s.calls tid) with
        | .blocked => none
        | .next sh w call _ =>
            some
              { base := { s.base with
                  shared := sh
                  threads := s.base.threads.set tid { th with worker := w } }
                calls := Function.update s.calls tid call }
        | .exit e => some { s with base := { s.base with fault := some e } }

def fineStep (s : FineState) : Action → Option FineState
  | .run tid rnd => if s.base.fault.isSome then none else fineRun s tid rnd
  | a => (step s.base a).map fun base => { s with base }

/-- The queue calls that return in a step. -/
def shows (s : State) : Action → List Event
  | .run tid _ =>
      match s.threads[tid]? with
      | none => []
      | some th => workerEvents tid s.shared th.worker
  | _ => []

def fineShows (s : FineState) : Action → List Event
  | .run tid rnd =>
      match s.base.threads[tid]? with
      | none => []
      | some th =>
          match fineWorkerStep program tid rnd s.base.shared th.worker (s.calls tid) with
          | .next _ _ _ events => events
          | _ => []
  | _ => []

/-- The state with another queue. -/
def State.withQueue (s : State) (q : MsgQueue) : State := { s with shared := s.shared.withQueue q }

/-- The state `c` of the threads with whole calls that `s` stands for: the queue is as the
calls that have returned left it. -/
structure Behind (s : FineState) (c : State) : Prop where
  balanced : Balanced program c.shared c.workers
  state : ∃ q₀, c = s.base.withQueue q₀ ∧
    InCall q₀ s.base.shared.queue s.base.workers s.calls

theorem behind_init (memory : MsgQueue) : Behind (fineInit memory) (init memory) where
  balanced := balanced_start memory
  state := ⟨(init memory).shared.queue, rfl, ⟨nofun, fun _ => rfl⟩⟩

/-! ## Each statement keeps what is behind the calls -/

/-- The main thread and the cancellations do not touch the queue. -/
structure Command (c : State → Option State) (s : State) : Prop where
  behind : ∀ s' q, c s = some s' → c (s.withQueue q) = some (s'.withQueue q)
  shared : ∀ s', c s = some s' → s'.shared = s.shared
  workers : ∀ s', c s = some s' → ∃ vs, s'.workers = s.workers ++ vs ∧ ∀ v ∈ vs, v.Starts

/-- A command whose result does not depend on the queue. -/
theorem Command.of_total {c : State → State} {s : State}
    (hbehind : ∀ q, c (s.withQueue q) = (c s).withQueue q) (hshared : (c s).shared = s.shared)
    (hworkers : ∃ vs, (c s).workers = s.workers ++ vs ∧ ∀ v ∈ vs, v.Starts) :
    Command (fun u => command u (c u)) s := by
  by_cases hjoining : s.joining.isSome = true
  · have hnone : ∀ s', command s (c s) = some s' → False := by
      intro s' h
      rw [command, if_pos hjoining] at h
      cases h
    exact ⟨fun s' q h => (hnone s' h).elim, fun s' h => (hnone s' h).elim,
      fun s' h => (hnone s' h).elim⟩
  · have hsome : command s (c s) = some (c s) := if_neg hjoining
    have hsome' : ∀ q, command (s.withQueue q) (c (s.withQueue q)) = some ((c s).withQueue q) :=
      fun q => (if_neg hjoining).trans (congrArg some (hbehind q))
    refine ⟨fun s' q h => ?_, fun s' h => ?_, fun s' h => ?_⟩
    · obtain rfl := Option.some.inj (hsome.symm.trans h)
      exact hsome' q
    · obtain rfl := Option.some.inj (hsome.symm.trans h)
      exact hshared
    · obtain rfl := Option.some.inj (hsome.symm.trans h)
      exact hworkers

theorem command_createProducer (s : State) (msg : Msg) (counter : UInt64) :
    Command (fun u => command u (createProducer u msg counter)) s := by
  by_cases hmax : s.producers.length = childMax - 1
  · have hsame : createProducer s msg counter = s := if_pos hmax
    apply Command.of_total
    · intro q
      rw [hsame]
      exact if_pos hmax
    · rw [hsame]
    · exact ⟨[], by rw [hsame, List.append_nil], by simp⟩
  · have hnew : createProducer s msg counter = _ := if_neg hmax
    apply Command.of_total
    · intro q
      rw [hnew]
      exact if_neg hmax
    · rw [hnew]
    · refine ⟨[.producer msg counter], ?_, by simp [Worker.Starts, Worker.producer]⟩
      rw [hnew]
      exact List.map_append

theorem command_createConsumer (s : State) (msg : Msg) (counter : UInt64) :
    Command (fun u => command u (createConsumer u msg counter)) s := by
  by_cases hmax : s.consumers.length = childMax - 1
  · have hsame : createConsumer s msg counter = s := if_pos hmax
    apply Command.of_total
    · intro q
      rw [hsame]
      exact if_pos hmax
    · rw [hsame]
    · exact ⟨[], by rw [hsame, List.append_nil], by simp⟩
  · have hnew : createConsumer s msg counter = _ := if_neg hmax
    apply Command.of_total
    · intro q
      rw [hnew]
      exact if_neg hmax
    · rw [hnew]
    · refine ⟨[.consumer msg counter], ?_, by simp [Worker.Starts, Worker.consumer]⟩
      rw [hnew]
      exact List.map_append

theorem command_removeProducer (s : State) :
    Command (fun u => command u (removeProducer u)) s := by
  cases hlast : s.producers.getLast? with
  | none =>
      have hself : removeProducer s = s := by simp [removeProducer, hlast]
      apply Command.of_total
      · intro q
        simp [removeProducer, State.withQueue, hlast]
      · rw [hself]
      · exact ⟨[], by rw [hself, List.append_nil], by simp⟩
  | some tid =>
      apply Command.of_total
      · intro q
        simp [removeProducer, State.withQueue, hlast]
      · simp [removeProducer, hlast]
      · refine ⟨[], ?_, by simp⟩
        simp only [removeProducer, hlast, List.append_nil]
        exact workers_pthreadCancel s.threads tid

theorem command_removeConsumer (s : State) :
    Command (fun u => command u (removeConsumer u)) s := by
  cases hlast : s.consumers.getLast? with
  | none =>
      have hself : removeConsumer s = s := by simp [removeConsumer, hlast]
      apply Command.of_total
      · intro q
        simp [removeConsumer, State.withQueue, hlast]
      · rw [hself]
      · exact ⟨[], by rw [hself, List.append_nil], by simp⟩
  | some tid =>
      apply Command.of_total
      · intro q
        simp [removeConsumer, State.withQueue, hlast]
      · simp [removeConsumer, hlast]
      · refine ⟨[], ?_, by simp⟩
        simp only [removeConsumer, hlast, List.append_nil]
        exact workers_pthreadCancel s.threads tid

theorem command_actOnCancel (s : State) (tid : ℕ) : Command (fun u => actOnCancel u tid) s := by
  cases hth : s.threads[tid]? with
  | none =>
      have hnone : actOnCancel s tid = none := by simp only [actOnCancel, hth]
      refine ⟨fun s' q h => ?_, fun s' h => ?_, fun s' h => ?_⟩ <;>
        exact absurd (hnone.symm.trans h) (by simp)
  | some th =>
      by_cases hacts : (th.cancel && !th.terminated && cancellationPoint th.worker.pc) = true
      · have hsome : actOnCancel s tid =
            some { s with threads := s.threads.set tid { th with terminated := true } } := by
          simp only [actOnCancel, hth]
          exact if_pos hacts
        refine ⟨fun s' q h => ?_, fun s' h => ?_, fun s' h => ?_⟩
        · obtain rfl := Option.some.inj (hsome.symm.trans h)
          have hth' : (s.withQueue q).threads[tid]? = some th := hth
          simp only [actOnCancel, hth']
          exact if_pos hacts
        · obtain rfl := Option.some.inj (hsome.symm.trans h)
          rfl
        · obtain rfl := Option.some.inj (hsome.symm.trans h)
          refine ⟨[], ?_, by simp⟩
          rw [List.append_nil]
          exact workers_terminate hth
      · have hnone : actOnCancel s tid = none := by
          simp only [actOnCancel, hth]
          exact if_neg hacts
        refine ⟨fun s' q h => ?_, fun s' h => ?_, fun s' h => ?_⟩ <;>
          exact absurd (hnone.symm.trans h) (by simp)

theorem pthreadJoined_eq_some {s s' : State} (h : pthreadJoined s = some s') :
    ∃ tid th, s.joining = some tid ∧ s.threads[tid]? = some th ∧ th.terminated = true ∧
      s' = { s with joining := none } := by
  cases hjoining : s.joining with
  | none => simp only [pthreadJoined, hjoining] at h; cases h
  | some tid =>
      cases hth : s.threads[tid]? with
      | none => simp only [pthreadJoined, hjoining, hth] at h; cases h
      | some th =>
          by_cases hterm : th.terminated = true
          · simp only [pthreadJoined, hjoining, hth, if_pos hterm] at h
            exact ⟨tid, th, rfl, hth, hterm, (Option.some.inj h).symm⟩
          · simp only [pthreadJoined, hjoining, hth, if_neg hterm] at h
            cases h

theorem command_pthreadJoined (s : State) : Command pthreadJoined s := by
  refine ⟨fun s' q h => ?_, fun s' h => ?_, fun s' h => ?_⟩
  · obtain ⟨tid, th, hjoining, hth, hterm, rfl⟩ := pthreadJoined_eq_some h
    have hjoining' : (s.withQueue q).joining = some tid := hjoining
    have hth' : (s.withQueue q).threads[tid]? = some th := hth
    simp only [pthreadJoined, hjoining', hth', if_pos hterm]
    rfl
  · obtain ⟨-, -, -, -, -, rfl⟩ := pthreadJoined_eq_some h
    rfl
  · obtain ⟨-, -, -, -, -, rfl⟩ := pthreadJoined_eq_some h
    exact ⟨[], (List.append_nil _).symm, by simp⟩

theorem step_command {s : State} {a : Action} (hrun : ∀ tid rnd, a ≠ .run tid rnd) :
    ∃ c : State → Option State, Command c s ∧
      ∀ u : State, step u a = if u.fault.isSome then none else c u := by
  cases a with
  | run tid rnd => exact absurd rfl (hrun tid rnd)
  | cancelled tid => exact ⟨_, command_actOnCancel s tid, fun _ => rfl⟩
  | joined => exact ⟨_, command_pthreadJoined s, fun _ => rfl⟩
  | createProducer msg counter => exact ⟨_, command_createProducer s msg counter, fun _ => rfl⟩
  | createConsumer msg counter => exact ⟨_, command_createConsumer s msg counter, fun _ => rfl⟩
  | removeProducer => exact ⟨_, command_removeProducer s, fun _ => rfl⟩
  | removeConsumer => exact ⟨_, command_removeConsumer s, fun _ => rfl⟩

theorem step_withQueue {s s' : State} {a : Action} (hrun : ∀ tid rnd, a ≠ .run tid rnd)
    (h : step s a = some s') (q : MsgQueue) :
    step (s.withQueue q) a = some (s'.withQueue q) ∧ s'.shared = s.shared ∧
      ∃ vs, s'.workers = s.workers ++ vs ∧ ∀ v ∈ vs, v.Starts := by
  obtain ⟨c, hc, hstep⟩ := step_command (s := s) hrun
  rw [hstep] at h
  split at h
  · cases h
  · rename_i hfault
    have hfault' : ¬ (s.withQueue q).fault.isSome = true := hfault
    rw [hstep, if_neg hfault', hc.behind s' q h]
    exact ⟨rfl, hc.shared s' h, hc.workers s' h⟩

theorem Behind.run {s s' : FineState} {c : State} {tid : ℕ} {rnd : Rand} (h : Behind s c)
    (hfault : ¬ s.base.fault.isSome = true) (hstep : fineRun s tid rnd = some s') :
    ∃ c', Traced step shows c (fineShows s (.run tid rnd)) c' ∧ Behind s' c' := by
  obtain ⟨hb, q₀, rfl, hin⟩ := h
  have hfault' : ¬ (s.base.withQueue q₀).fault.isSome = true := hfault
  simp only [fineRun] at hstep
  split at hstep
  · cases hstep
  · rename_i th hth
    split at hstep
    · cases hstep
    · rename_i hlive
      have hw : s.base.workers[tid]? = some th.worker := by simp [State.workers, hth]
      have hthreads : (s.base.withQueue q₀).threads[tid]? = some th := hth
      simp only [fineShows, hth]
      split at hstep
      · cases hstep
      · rename_i sh w call events hnext
        obtain rfl := Option.some.inj hstep
        rw [hnext]
        cases fineWorkerStep_effect hb hin hw hnext with
        | inside worker shared shows ok =>
            have hsame : (s.base.threads.set tid { th with worker := w }).map Thread.worker =
                s.base.workers := map_set_eq hth worker
            have hset : s.base.threads.set tid { th with worker := w } = s.base.threads := by
              obtain ⟨hlt, hget⟩ := List.getElem?_eq_some_iff.mp hth
              rw [worker, ← hget, List.set_getElem_self]
            refine ⟨s.base.withQueue q₀, ?_, hb, q₀, ?_, ?_⟩
            · show Traced step Lab5.shows (s.base.withQueue q₀) events _
              rw [shows]
              exact .refl
            · simp only [State.withQueue, shared, hset]
            · rw [State.workers, hsame]
              exact ok
        | step q₁ next shows ok =>
            have hstep : step (s.base.withQueue q₀) (.run tid rnd) = some
                ({ s.base with
                  shared := sh
                  threads := s.base.threads.set tid { th with worker := w } }.withQueue q₁) := by
              simp only [step, if_neg hfault', runThread, hthreads, if_neg hlive]
              rw [show workerStep program tid rnd (s.base.withQueue q₀).shared th.worker =
                .next (sh.withQueue q₁) w from next]
              rfl
            have hshows : events = Lab5.shows (s.base.withQueue q₀) (.run tid rnd) := by
              simp only [Lab5.shows, hthreads]
              exact shows
            refine ⟨_, ?_, (step_effect hstep).2.balanced hb, q₁, rfl, ?_⟩
            · show Traced step Lab5.shows (s.base.withQueue q₀) events _
              rw [hshows]
              exact .single hstep
            · rw [State.workers, List.map_set]
              exact ok
      · rename_i e hexit
        obtain rfl := Option.some.inj hstep
        rw [hexit]
        have hcoarse := fineWorkerStep_exit hb hin hw hexit
        have hstep : step (s.base.withQueue q₀) (.run tid rnd) = some
            ({ s.base with fault := some e }.withQueue q₀) := by
          simp only [step, if_neg hfault', runThread, hthreads, if_neg hlive]
          rw [show workerStep program tid rnd (s.base.withQueue q₀).shared th.worker = .exit e
            from hcoarse]
          rfl
        have hshows : Lab5.shows (s.base.withQueue q₀) (.run tid rnd) = [] := by
          simp only [Lab5.shows, hthreads]
          exact workerEvents_of_exit hcoarse
        refine ⟨_, ?_, (step_effect hstep).2.balanced hb, q₀, rfl, hin⟩
        show Traced step Lab5.shows (s.base.withQueue q₀) [] _
        rw [← hshows]
        exact .single hstep

theorem Behind.step {s s' : FineState} {c : State} {a : Action} (h : Behind s c)
    (hstep : fineStep s a = some s') :
    ∃ c', Traced step shows c (fineShows s a) c' ∧ Behind s' c' := by
  by_cases hrun : ∃ tid rnd, a = .run tid rnd
  · obtain ⟨tid, rnd, rfl⟩ := hrun
    simp only [fineStep] at hstep
    split at hstep
    · cases hstep
    · rename_i hfault
      exact h.run hfault hstep
  · have hrun : ∀ tid rnd, a ≠ .run tid rnd := fun tid rnd ha => hrun ⟨tid, rnd, ha⟩
    obtain ⟨hb, q₀, rfl, hin⟩ := h
    have hbase : ∃ base, Lab5.step s.base a = some base ∧ s' = { s with base } ∧
        fineShows s a = [] ∧ shows (s.base.withQueue q₀) a = [] := by
      cases a with
      | run tid rnd => exact absurd rfl (hrun tid rnd)
      | cancelled | joined | createProducer | createConsumer | removeProducer | removeConsumer =>
          obtain ⟨base, hbase, rfl⟩ := Option.map_eq_some_iff.mp hstep
          exact ⟨base, hbase, rfl, rfl, rfl⟩
    obtain ⟨base, hbase, rfl, hfine, hcoarse⟩ := hbase
    obtain ⟨hbehind, hshared, vs, hvs, -⟩ := step_withQueue hrun hbase q₀
    refine ⟨base.withQueue q₀, ?_, (step_effect hbehind).2.balanced hb, q₀, rfl, ?_⟩
    · rw [hfine, ← hcoarse]
      exact .single hbehind
    · show InCall q₀ base.shared.queue base.workers s.calls
      rw [hshared, hvs]
      exact hin.more vs

/-! ## Every run -/

theorem hashed_produceMsg (rnd : Rand) (msg : Msg) : Hashed (program.produceMsg rnd msg) :=
  produceMsg_hash rnd msg

theorem soundRun_init (memory : MsgQueue) :
    SoundRun [] (init memory).shared (init memory).workers where
  delivered := ⟨_, Delivered.init (represents_init memory).2 rfl rfl⟩
  sent _ h := by cases h
  workers _ h := by cases h

theorem soundRun_step {es : List Event} {s s' : State} {a : Action}
    (h : SoundRun es s.shared s.workers) (hstep : step s a = some s') :
    SoundRun (es ++ shows s a) s'.shared s'.workers := by
  by_cases hrun : ∃ tid rnd, a = .run tid rnd
  · obtain ⟨tid, rnd, rfl⟩ := hrun
    simp only [step] at hstep
    split at hstep
    · cases hstep
    · simp only [runThread] at hstep
      split at hstep
      · cases hstep
      · rename_i th hth
        have hw : s.workers[tid]? = some th.worker := by simp [State.workers, hth]
        simp only [shows, hth]
        split at hstep
        · cases hstep
        · split at hstep
          · cases hstep
          · rename_i sh w hnext
            obtain rfl := Option.some.inj hstep
            rw [State.workers, List.map_set]
            exact SoundRun.step hashed_produceMsg h hw hnext
          · rename_i e hexit
            obtain rfl := Option.some.inj hstep
            rw [workerEvents_of_exit hexit, List.append_nil]
            exact h
  · have hrun : ∀ tid rnd, a ≠ .run tid rnd := fun tid rnd ha => hrun ⟨tid, rnd, ha⟩
    obtain ⟨-, hshared, vs, hvs, hstart⟩ := step_withQueue hrun hstep s.shared.queue
    have hshows : shows s a = [] := by
      cases a with
      | run tid rnd => exact absurd rfl (hrun tid rnd)
      | cancelled | joined | createProducer | createConsumer | removeProducer
        | removeConsumer => rfl
    rw [hshows, List.append_nil, hshared, hvs]
    exact h.more hstart

/-- A terminated thread has stopped outside the queue calls. -/
theorem Behind.not_inside {s : FineState} {c : State} (h : Behind s c) (ho : Owned c) {tid : ℕ}
    {th : Thread} (hth : s.base.threads[tid]? = some th) (hterm : th.terminated = true) :
    s.calls tid = none := by
  obtain ⟨-, q₀, rfl, hin⟩ := h
  have hw : s.base.workers[tid]? = some th.worker := by simp [State.workers, hth]
  have hpoint := ho.stopped th (List.mem_of_getElem? hth) hterm
  apply hin.not_inside hw
  · intro hpc
    rw [hpc] at hpoint
    cases hpoint
  · intro hpc
    rw [hpc] at hpoint
    cases hpoint

/-- Statement by statement, with threads cancelled while they run, up to the first `put_msg` that
finds the queue full: the messages come out in the order in which they went in, none twice and none
left out, no consumer reports a checksum, and no thread ends inside a queue call. -/
theorem thread_messages_in_order {memory : MsgQueue} {es : List Event} {s : FineState}
    (h : Traced fineStep fineShows (fineInit memory) es s) :
    InOrder es ∧ (∀ m ∈ received es, Hashed m) ∧
      (∀ w ∈ s.base.workers, w.pc ≠ .consumer .fprintf) ∧
      ∀ (tid : ℕ) (th : Thread), s.base.threads[tid]? = some th → th.terminated = true →
        s.calls tid = none := by
  obtain ⟨c, hrun, hbehind⟩ := h.simulate (behind_init memory) fun _ _ _ _ hu hstep => hu.step hstep
  have hsound : SoundRun es c.shared c.workers := hrun.invariant
    (I := fun es u => SoundRun es u.shared u.workers) (soundRun_init memory)
    fun _ _ _ _ hu hstep => soundRun_step hu hstep
  have howned : Owned c := owned_of_reaches hrun.reaches
  have hended : ∀ (tid : ℕ) (th : Thread), s.base.threads[tid]? = some th →
      th.terminated = true → s.calls tid = none :=
    fun _ _ hth hterm => hbehind.not_inside howned hth hterm
  obtain ⟨f, hd⟩ := hsound.delivered
  obtain ⟨-, q₀, rfl, -⟩ := hbehind
  refine ⟨hd.inOrder, fun m hm => hsound.sent m (hd.received_sent hm), fun w hw hpc => ?_, hended⟩
  have hfalse := hsound.workers w hw
  rw [Worker.Sound, hpc] at hfalse
  exact hfalse

/-- One message goes through; its sender is cancelled inside its next call, finishes the call and
ends in `printf`. -/
theorem thread_messages_in_order_one :
    ∃ es s, Traced fineStep fineShows (fineInit zeroMemory) es s ∧ (received es).length = 1 ∧
      (sent es).length = 2 ∧ InOrder es := by
  have hrun : ∃ es s, trace fineStep fineShows (fineInit zeroMemory)
      ([.createProducer Msg.zero 0, .createConsumer Msg.zero 0] ++
        List.replicate 11 (.run 0 noRand) ++ List.replicate 9 (.run 1 noRand) ++
        List.replicate 8 (.run 0 noRand) ++ [.removeProducer] ++
        List.replicate 5 (.run 0 noRand) ++ [.cancelled 0, .joined]) =
      some (es, s) ∧ (received es).length = 1 ∧ (sent es).length = 2 := ⟨_, _, rfl, rfl, rfl⟩
  obtain ⟨es, s, htrace, hlen, hsent⟩ := hrun
  exact ⟨es, s, .of_trace htrace, hlen, hsent, (thread_messages_in_order (.of_trace htrace)).1⟩

end OsaspLabs.Lab5
