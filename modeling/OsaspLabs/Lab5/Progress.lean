import OsaspLabs.Ipc.Progress
import OsaspLabs.Lab5.Statements

/-! # LAB_5 never gets stuck

The threads go on alone; one with a pending cancellation stops at its next cancellation point. -/

namespace OsaspLabs.Lab5

open Ipc Runs

def Alone (s : State) (a : Action) : Prop :=
  ∃ tid rnd, a = .run tid rnd ∧ ∀ th, s.threads[tid]? = some th → th.cancel = true →
    cancellationPoint th.worker.pc = false

/-- Nothing holds the thread back. -/
def Thread.Free (th : Thread) : Prop := th.cancel = false ∧ th.terminated = false

def State.crew (s : State) : Crew (Option ℕ) := ⟨s.shared, s.workers⟩

def flagsOf (threads : List Thread) : List (Bool × Bool) :=
  threads.map fun th => (th.cancel, th.terminated)

/-- `u` is what steps of the threads of `s` have made of it. -/
structure GoneOn (s u : State) (c : Crew (Option ℕ)) : Prop where
  crew : u.crew = c
  fault : u.fault = none
  joining : u.joining = s.joining
  flags : flagsOf u.threads = flagsOf s.threads

/-- The crew keeps to what the threads may do. -/
def Admitted (s : State) (may : ℕ → Pc → Prop) : Prop :=
  ∀ tid th pc, s.threads[tid]? = some th → may tid pc →
    th.terminated = false ∧ (th.cancel = true → cancellationPoint pc = false)

theorem GoneOn.thread {s u : State} {c : Crew (Option ℕ)} {tid : ℕ} {w : Worker}
    (h : GoneOn s u c) (hw : c.workers[tid]? = some w) :
    ∃ th th₀, u.threads[tid]? = some th ∧ s.threads[tid]? = some th₀ ∧ th.worker = w ∧
      th.cancel = th₀.cancel ∧ th.terminated = th₀.terminated := by
  have hworkers : u.workers = c.workers := congrArg Crew.workers h.crew
  rw [← hworkers, State.workers, List.getElem?_map] at hw
  obtain ⟨th, hth, rfl⟩ := Option.map_eq_some_iff.mp hw
  have hflags : (flagsOf s.threads)[tid]? = some (th.cancel, th.terminated) := by
    rw [← h.flags, flagsOf, List.getElem?_map, hth]
    rfl
  rw [flagsOf, List.getElem?_map] at hflags
  obtain ⟨th₀, hth₀, heq⟩ := Option.map_eq_some_iff.mp hflags
  obtain ⟨hcancel, hterm⟩ := Prod.mk.inj heq
  exact ⟨th, th₀, hth, hth₀, rfl, hcancel.symm, hterm.symm⟩

/-- A thread that may go on does what its worker does. -/
theorem GoneOn.next {s u : State} {c c' : Crew (Option ℕ)} {may : ℕ → Pc → Prop} {tid : ℕ}
    (h : GoneOn s u c) (hadmitted : Admitted s may) (hallowed : c.Allowed may tid)
    (hstep : crewStep program c tid = some c') :
    ∃ u', Runs.Step Lab5.step Alone u u' ∧ GoneOn s u' c' := by
  obtain ⟨w, hw, hmay⟩ := hallowed
  obtain ⟨th, th₀, hth, hth₀, rfl, hcancel, hterm⟩ := h.thread hw
  obtain ⟨hlive, hprompt⟩ := hadmitted tid th₀ th.worker.pc hth₀ hmay
  simp only [crewStep, hw] at hstep
  cases hnext : workerStep program tid noRand c.shared th.worker with
  | blocked | exit e =>
      rw [hnext] at hstep
      cases hstep
  | next sh w' =>
      rw [hnext] at hstep
      obtain rfl := Option.some.inj hstep
      have hshared : u.shared = c.shared := congrArg Crew.shared h.crew
      have hworkers : u.workers = c.workers := congrArg Crew.workers h.crew
      have hfault : ¬ u.fault.isSome = true := by simp [h.fault]
      have hrun : ¬ th.terminated = true := by simp [hterm, hlive]
      refine ⟨{ u with shared := sh, threads := u.threads.set tid { th with worker := w' } },
        ⟨.run tid noRand, ⟨tid, noRand, rfl, ?_⟩, ?_⟩, ?_, h.fault, h.joining, ?_⟩
      · intro th' hth' hcancel'
        obtain rfl := Option.some.inj (hth.symm.trans hth')
        exact hprompt (hcancel ▸ hcancel')
      · simp only [Lab5.step, if_neg hfault, runThread, hth, if_neg hrun, hshared, hnext]
      · show Crew.mk sh ((u.threads.set tid { th with worker := w' }).map Thread.worker) = _
        rw [List.map_set, ← hworkers]
        rfl
      · rw [← h.flags]
        exact map_set_eq hth rfl

theorem GoneOn.reaches {s : State} {c : Crew (Option ℕ)} {may : ℕ → Pc → Prop}
    (hadmitted : Admitted s may) (hfault : s.fault = none)
    (h : Reaches (crewStep program) (Crew.Allowed may) s.crew c) :
    ∃ u, Reaches Lab5.step Alone s u ∧ GoneOn s u c := by
  apply h.simulate (R := fun c u => GoneOn s u c) ⟨rfl, hfault, rfl, rfl⟩
  intro c tid c' u hgone hallowed hstep
  obtain ⟨u', hu', hgone'⟩ := hgone.next hadmitted hallowed hstep
  exact ⟨u', .single hu', hgone'⟩

/-! ## Messages -/

/-- A free thread goes on everywhere, a cancelled one while it holds a slot. -/
def May (s : State) (tid : ℕ) (pc : Pc) : Prop :=
  ∃ th, s.threads[tid]? = some th ∧ th.terminated = false ∧
    (th.cancel = false ∨ pc.holdsSlot = true)

theorem not_cancellationPoint {pc : Pc} (h : pc.holdsSlot = true) :
    cancellationPoint pc = false := by
  cases hpoint : cancellationPoint pc with
  | false => rfl
  | true =>
      rw [(holdsSlot_of_cancellationPoint hpoint).1] at h
      cases h

theorem admitted_may (s : State) : Admitted s (May s) := by
  rintro tid th pc hth ⟨th', hth', hlive, hgoes⟩
  obtain rfl := Option.some.inj (hth.symm.trans hth')
  refine ⟨hlive, fun hcancel => ?_⟩
  rcases hgoes with hfree | hholds
  · rw [hfree] at hcancel
    cases hcancel
  · exact not_cancellationPoint hholds

theorem Owned.holder_live {s : State} (ho : Owned s) {tid : ℕ} {w : Worker}
    (hw : s.workers[tid]? = some w) (hholds : w.pc.holdsSlot = true) :
    ∃ th, s.threads[tid]? = some th ∧ th.worker = w ∧ th.terminated = false := by
  rw [State.workers, List.getElem?_map] at hw
  obtain ⟨th, hth, rfl⟩ := Option.map_eq_some_iff.mp hw
  refine ⟨th, hth, rfl, ?_⟩
  cases hterm : th.terminated with
  | false => rfl
  | true =>
      have hpoint := ho.stopped th (List.mem_of_getElem? hth) hterm
      rw [not_cancellationPoint hholds] at hpoint
      cases hpoint

theorem Owned.crew {s : State} (ho : Owned s) : s.crew.Ok program (May s) where
  balanced := ho.balanced
  holders tid w hw hholds := by
    obtain ⟨th, hth, -, hlive⟩ := ho.holder_live hw hholds
    exact ⟨th, hth, hlive, .inr hholds⟩

theorem May.of_free {s : State} {tid : ℕ} {th : Thread} (hth : s.threads[tid]? = some th)
    (hfree : th.Free) (pc : Pc) : May s tid pc :=
  ⟨th, hth, hfree.2, .inl hfree.1⟩

theorem May.slot {s : State} (tid : ℕ) (pc pc' : Pc) (h : May s tid pc)
    (hholds : pc'.holdsSlot = true) : May s tid pc' := by
  obtain ⟨th, hth, hlive, -⟩ := h
  exact ⟨th, hth, hlive, .inr hholds⟩

/-- A thread that holds a slot takes the step of its worker. -/
theorem GoneOn.holder {s u : State} {c : Crew (Option ℕ)} {may : ℕ → Pc → Prop} {tid : ℕ}
    {w : Worker} (h : GoneOn s u c) (hok : c.Ok program may) (hadmitted : Admitted s may)
    (hw : c.workers[tid]? = some w) (hholds : w.pc.holdsSlot = true) :
    Alone u (.run tid noRand) ∧ ∃ th, u.threads[tid]? = some th ∧ th.worker = w ∧
      step u (.run tid noRand) = match workerStep program tid noRand u.shared w with
        | .blocked => none
        | .next sh w' =>
            some { u with shared := sh, threads := u.threads.set tid { th with worker := w' } }
        | .exit e => some { u with fault := some e } := by
  obtain ⟨th, th₀, hth, hth₀, rfl, hcancel, hterm⟩ := h.thread hw
  obtain ⟨hlive, -⟩ := hadmitted tid th₀ th.worker.pc hth₀ (hok.holders tid _ hw hholds)
  have hfault : ¬ u.fault.isSome = true := by simp [h.fault]
  have hrun : ¬ th.terminated = true := by simp [hterm, hlive]
  refine ⟨⟨tid, noRand, rfl, fun th' hth' _ => ?_⟩, th, hth, rfl, ?_⟩
  · obtain rfl := Option.some.inj (hth.symm.trans hth')
    exact not_cancellationPoint hholds
  · cases hnext : workerStep program tid noRand u.shared th.worker <;>
      simp only [step, if_neg hfault, runThread, hth, if_neg hrun, hnext]

/-- A message is taken out. -/
theorem GoneOn.getMsg {s u : State} {c : Crew (Option ℕ)} {may : ℕ → Pc → Prop} {tid : ℕ}
    {w : Worker} (h : GoneOn s u c) (hok : c.Ok program may) (hadmitted : Admitted s may)
    (hw : c.workers[tid]? = some w) (hpc : w.pc = .consumer .getMsg) :
    Alone u (.run tid noRand) ∧ ∃ v, step u (.run tid noRand) = some v ∧
      ∃ m n, shows u (.run tid noRand) = [.got tid m n] := by
  have hholds : w.pc.holdsSlot = true := by
    rw [hpc]
    rfl
  obtain ⟨m, n, q, hget⟩ := hok.balanced.getMsg_ok hw hpc
  have hshared : u.shared = c.shared := congrArg Crew.shared h.crew
  rw [← hshared] at hget
  obtain ⟨halone, th, hth, rfl, hstep⟩ := h.holder hok hadmitted hw hholds
  simp only [workerStep, hpc, consumerStep, hget] at hstep
  refine ⟨halone, _, hstep, m, n, ?_⟩
  simp only [shows, hth, workerEvents, hpc, hget]

/-- The run ends at a `put_msg` that finds the queue full. -/
theorem GoneOn.overflow {s u : State} {c : Crew (Option ℕ)} {may : ℕ → Pc → Prop} {tid : ℕ}
    {w : Worker} (h : GoneOn s u c) (hok : c.Ok program may) (hadmitted : Admitted s may)
    (hw : c.workers[tid]? = some w) (hover : Overflows c.shared w) :
    Alone u (.run tid noRand) ∧
      step u (.run tid noRand) = some { u with fault := some Ipc.overflow } := by
  obtain ⟨hpc, hover⟩ := hover
  have hholds : w.pc.holdsSlot = true := by
    rw [hpc]
    rfl
  have hshared : u.shared = c.shared := congrArg Crew.shared h.crew
  rw [← hshared] at hover
  obtain ⟨halone, th, hth, rfl, hstep⟩ := h.holder hok hadmitted hw hholds
  simp only [workerStep, hpc, producerStep, hover] at hstep
  exact ⟨halone, hstep⟩

/-- Whatever the threads, the commands and the cancellations have done before a `put_msg` finds the
queue full: as long as a producer and a consumer are left that are not to be removed, the threads
can go on alone until one of them takes the next message out, or finds the queue full. -/
theorem delivery_stays_possible {memory : MsgQueue} {s : State} {p c : ℕ} {thp thc : Thread}
    (h : Reaches step anything (init memory) s) (hfault : s.fault = none)
    (hp : s.threads[p]? = some thp) (hproducer : thp.worker.pc.isProducer = true)
    (hpfree : thp.Free) (hc : s.threads[c]? = some thc)
    (hconsumer : thc.worker.pc.isProducer = false) (hcfree : thc.Free) :
    ∃ u tid v, Reaches step Alone s u ∧ Alone u (.run tid noRand) ∧
      step u (.run tid noRand) = some v ∧
      ((∃ m n, shows u (.run tid noRand) = [.got tid m n]) ∨ v.fault = some overflow) := by
  have hok := (owned_of_reaches h).crew
  have hmanned : s.crew.Manned p c := {
    producer := ⟨thp.worker, by simp [State.crew, State.workers, hp], hproducer⟩
    consumer := ⟨thc.worker, by simp [State.crew, State.workers, hc], hconsumer⟩ }
  obtain ⟨d, hrun, hokd, hready⟩ := hok.reaches_ready admits_mutex May.slot
    (May.of_free hp hpfree) (May.of_free hc hcfree) hmanned
  obtain ⟨u, hu, hgone⟩ := GoneOn.reaches (admitted_may s) hfault hrun
  obtain ⟨tid, w, hw, hpc | hover⟩ := hready
  · obtain ⟨halone, v, hstep, hgot⟩ := hgone.getMsg hokd (admitted_may s) hw hpc
    exact ⟨u, tid, v, hu, halone, hstep, .inl hgot⟩
  · obtain ⟨halone, hstep⟩ := hgone.overflow hokd (admitted_may s) hw hover
    exact ⟨u, tid, _, hu, halone, hstep, .inr rfl⟩

/-- A thread that is cancelled in its `sleep` is still to be joined. -/
theorem delivery_stays_possible_one :
    ∃ s, exec step (init zeroMemory) ([.createProducer Msg.zero 0, .createProducer Msg.zero 0,
        .createConsumer Msg.zero 0] ++ List.replicate 7 (.run 1 noRand) ++ [.removeProducer]) =
          some s ∧ s.joining = some 1 ∧
      ∃ u tid v, Reaches step Alone s u ∧ Alone u (.run tid noRand) ∧
        step u (.run tid noRand) = some v ∧
        ((∃ m n, shows u (.run tid noRand) = [.got tid m n]) ∨ v.fault = some overflow) := by
  have hrun : ∃ s thp thc, exec step (init zeroMemory) ([.createProducer Msg.zero 0,
      .createProducer Msg.zero 0, .createConsumer Msg.zero 0] ++
        List.replicate 7 (.run 1 noRand) ++ [.removeProducer]) = some s ∧
      s.joining = some 1 ∧ s.fault = none ∧ s.threads[0]? = some thp ∧
      thp.worker.pc.isProducer = true ∧ thp.Free ∧ s.threads[2]? = some thc ∧
      thc.worker.pc.isProducer = false ∧ thc.Free :=
    ⟨_, _, _, rfl, rfl, rfl, rfl, rfl, ⟨rfl, rfl⟩, rfl, rfl, rfl, rfl⟩
  obtain ⟨s, thp, thc, hexec, hjoin, hfault, hp, hkp, hfp, hc, hkc, hfc⟩ := hrun
  exact ⟨s, hexec, hjoin, delivery_stays_possible (reaches_anything_of_exec hexec) hfault hp hkp
    hfp hc hkc hfc⟩

/-! ## Joining -/

/-- The steps to a cancellation point. -/
def toPoint : Pc → ℕ
  | .producer .lock => 5
  | .producer .putMsg => 4
  | .producer .unlock => 3
  | .producer .postItems => 2
  | .producer .produceMsg => 1
  | .consumer .lock => 6
  | .consumer .getMsg => 5
  | .consumer .unlock => 4
  | .consumer .postFreeSpace => 3
  | .consumer .consumeMsg => 2
  | _ => 0

/-- Thread `tid` goes on to its next cancellation point, the others only while they hold a
slot. -/
def MayEnd (s : State) (tid : ℕ) (t : ℕ) (pc : Pc) : Prop :=
  ∃ th, s.threads[t]? = some th ∧ th.terminated = false ∧
    (t = tid ∧ cancellationPoint pc = false ∨ pc.holdsSlot = true)

theorem admitted_mayEnd (s : State) (tid : ℕ) : Admitted s (MayEnd s tid) := by
  rintro t th pc hth ⟨th', hth', hlive, hgoes⟩
  obtain rfl := Option.some.inj (hth.symm.trans hth')
  refine ⟨hlive, fun _ => ?_⟩
  rcases hgoes with ⟨-, hpoint⟩ | hholds
  · exact hpoint
  · exact not_cancellationPoint hholds

theorem MayEnd.slot {s : State} {tid : ℕ} (t : ℕ) (pc pc' : Pc) (h : MayEnd s tid t pc)
    (hholds : pc'.holdsSlot = true) : MayEnd s tid t pc' := by
  obtain ⟨th, hth, hlive, -⟩ := h
  exact ⟨th, hth, hlive, .inr hholds⟩

theorem Owned.crewEnd {s : State} (ho : Owned s) (tid : ℕ) :
    s.crew.Ok program (MayEnd s tid) where
  balanced := ho.balanced
  holders t w hw hholds := by
    obtain ⟨th, hth, -, hlive⟩ := ho.holder_live hw hholds
    exact ⟨th, hth, hlive, .inr hholds⟩

/-- The thread has come to a cancellation point, or a producer is about to end the program. -/
def AtPoint (tid : ℕ) (c : Crew (Option ℕ)) : Prop :=
  (∃ w, c.workers[tid]? = some w ∧ cancellationPoint w.pc = true) ∨
    ∃ (t : ℕ) (w : Worker), c.workers[t]? = some w ∧ Overflows c.shared w

theorem toPoint_lt {pc pc' : Pc} (hpoint : cancellationPoint pc = false)
    (h : pc' ∈ pc.successors) : toPoint pc' < toPoint pc := by
  cases pc with
  | producer pc =>
      cases pc <;> simp [Pc.successors] at h <;> subst h <;>
        first | decide | cases hpoint
  | consumer pc =>
      cases pc <;> simp [Pc.successors] at h <;> rcases h with rfl | rfl <;>
        first | decide | cases hpoint

/-- Off its cancellation points a thread waits for the mutex at most. -/
theorem locked_of_waits {sh : Shared (Option ℕ)} {pc : Pc} (hpoint : cancellationPoint pc = false)
    (h : Waits program sh pc) : program.lock.free sh.mutex = 0 := by
  cases pc with
  | producer pc => cases pc <;> first | exact h | exact h.elim | cases hpoint
  | consumer pc => cases pc <;> first | exact h | exact h.elim | cases hpoint

theorem not_waits_of_inCriticalSection {sh : Shared (Option ℕ)} {pc : Pc}
    (h : pc.inCriticalSection = true) : ¬ Waits program sh pc := by
  cases pc with
  | producer pc => cases pc <;> first | exact id | cases h
  | consumer pc => cases pc <;> first | exact id | cases h

/-- A thread that has to wait for the mutex gets it from whoever has it. -/
theorem reaches_point {s : State} {tid : ℕ} {th : Thread} (ho : Owned s)
    (hth : s.threads[tid]? = some th) (hlive : th.terminated = false) :
    ∃ c, Reaches (crewStep program) (Crew.Allowed (MayEnd s tid)) s.crew c ∧
      (c.Ok program (MayEnd s tid) ∧ ∃ w, c.workers[tid]? = some w) ∧ AtPoint tid c := by
  have hw : ∃ w, s.crew.workers[tid]? = some w :=
    ⟨th.worker, by simp [State.crew, State.workers, hth]⟩
  apply Reaches.exists_final (Crew.potential toPoint) ?_ ⟨ho.crewEnd tid, hw⟩
  rintro c ⟨hok, w, hw⟩ hfinal
  have hpoint : cancellationPoint w.pc = false := by
    cases hpoint : cancellationPoint w.pc with
    | false => rfl
    | true => exact absurd (.inl ⟨w, hw, hpoint⟩) hfinal
  have hover : ∀ (t : ℕ) (v : Worker), c.workers[t]? = some v → ¬ Overflows c.shared v :=
    fun t v hv hover => hfinal (.inr ⟨t, v, hv, hover⟩)
  have hgo : ∃ (t : ℕ) (v : Worker), c.workers[t]? = some v ∧ MayEnd s tid t v.pc ∧
      ¬ Waits program c.shared v.pc ∧ cancellationPoint v.pc = false := by
    by_cases hwaits : Waits program c.shared w.pc
    · obtain ⟨t, v, hv, hmay, hcs⟩ := hok.exists_holder (locked_of_waits hpoint hwaits)
      exact ⟨t, v, hv, hmay, not_waits_of_inCriticalSection hcs,
        not_cancellationPoint (holdsSlot_of_inCriticalSection hcs)⟩
    · exact ⟨tid, w, hw, ⟨th, hth, hlive, .inl ⟨rfl, hpoint⟩⟩, hwaits, hpoint⟩
  obtain ⟨t, v, hv, hmay, hwaits, hpoint⟩ := hgo
  obtain ⟨v', c', hstep, hok', hadv⟩ := hok.advance admits_mutex MayEnd.slot hv hmay hwaits
    (hover t v hv) fun _ => toPoint_lt hpoint
  obtain ⟨x, hx, -⟩ := hadv.kind hv ⟨w, hw, rfl⟩
  exact ⟨t, c', ⟨v, hv, hmay⟩, hstep, ⟨hok', x, hx⟩, hadv.potential⟩

/-- The thread in `pthread_join` has been told to stop. -/
structure Listed (s : State) : Prop where
  tables : ∀ tid ∈ s.producers ++ s.consumers, tid < s.threads.length
  joining : ∀ tid, s.joining = some tid →
    ∃ th, s.threads[tid]? = some th ∧ th.cancel = true

theorem Listed.init (memory : MsgQueue) : Listed (init memory) where
  tables := by simp [Lab5.init]
  joining := by simp [Lab5.init]

/-- The tables and the thread to join are kept as long as no thread is forgotten. -/
theorem Listed.of_threads {s s' : State} (h : Listed s)
    (hlength : s.threads.length ≤ s'.threads.length)
    (hcancel : ∀ (tid : ℕ) (th : Thread), s.threads[tid]? = some th → th.cancel = true →
      ∃ th' : Thread, s'.threads[tid]? = some th' ∧ th'.cancel = true)
    (hproducers : ∀ tid ∈ s'.producers ++ s'.consumers,
      tid ∈ s.producers ++ s.consumers ∨ tid < s'.threads.length)
    (hjoining : ∀ tid, s'.joining = some tid → s.joining = some tid) : Listed s' where
  tables tid htid := by
    rcases hproducers tid htid with hold | hnew
    · exact Nat.lt_of_lt_of_le (h.tables tid hold) hlength
    · exact hnew
  joining tid htid := by
    obtain ⟨th, hth, hset⟩ := h.joining tid (hjoining tid htid)
    exact hcancel tid th hth hset

theorem Listed.set {s s' : State} {t : ℕ} {th th' : Thread} (h : Listed s)
    (hth : s.threads[t]? = some th) (hthreads : s'.threads = s.threads.set t th')
    (hcancel : th'.cancel = th.cancel) (hproducers : s'.producers = s.producers)
    (hconsumers : s'.consumers = s.consumers) (hjoining : s'.joining = s.joining) :
    Listed s' := by
  have hlt := (List.getElem?_eq_some_iff.mp hth).1
  apply h.of_threads
  · rw [hthreads, List.length_set]
  · intro tid v hv hset
    rw [hthreads]
    by_cases htid : t = tid
    · subst htid
      obtain rfl := Option.some.inj (hth.symm.trans hv)
      exact ⟨th', List.getElem?_set_self hlt, by rw [hcancel, hset]⟩
    · exact ⟨v, by rw [List.getElem?_set_ne htid, hv], hset⟩
  · intro tid htid
    rw [hproducers, hconsumers] at htid
    exact .inl htid
  · intro tid htid
    rwa [hjoining] at htid

theorem Listed.append {s s' : State} {th : Thread} (h : Listed s)
    (hthreads : s'.threads = s.threads ++ [th])
    (htables : ∀ tid ∈ s'.producers ++ s'.consumers,
      tid ∈ s.producers ++ s.consumers ∨ tid = s.threads.length)
    (hjoining : s'.joining = s.joining) : Listed s' := by
  apply h.of_threads
  · rw [hthreads, List.length_append]
    exact Nat.le_add_right _ _
  · intro tid v hv hset
    refine ⟨v, ?_, hset⟩
    rw [hthreads, List.getElem?_append_left (List.getElem?_eq_some_iff.mp hv).1, hv]
  · intro tid htid
    rcases htables tid htid with hold | hnew
    · exact .inl hold
    · refine .inr ?_
      rw [hnew, hthreads, List.length_append]
      exact Nat.lt_succ_self _
  · intro tid htid
    rwa [hjoining] at htid

/-- The thread that is removed is told to stop. -/
theorem Listed.remove {s s' : State} {t : ℕ} (h : Listed s) (ht : t < s.threads.length)
    (hthreads : s'.threads = pthreadCancel s.threads t)
    (htables : ∀ tid ∈ s'.producers ++ s'.consumers, tid ∈ s.producers ++ s.consumers)
    (hjoining : s'.joining = some t) : Listed s' where
  tables tid htid := by
    rw [hthreads, pthreadCancel, List.length_modify]
    exact h.tables tid (htables tid htid)
  joining tid htid := by
    obtain rfl := Option.some.inj (hjoining.symm.trans htid)
    refine ⟨{ s.threads[t] with cancel := true }, ?_, rfl⟩
    rw [hthreads, pthreadCancel, List.getElem?_modify_eq, List.getElem?_eq_getElem ht]
    rfl

theorem Listed.step {s s' : State} {a : Action} (h : Listed s) (hstep : step s a = some s') :
    Listed s' := by
  simp only [Lab5.step] at hstep
  split at hstep
  · cases hstep
  · cases a with
    | run tid rnd =>
        simp only [runThread] at hstep
        split at hstep
        · cases hstep
        · rename_i th hth
          split at hstep
          · cases hstep
          · split at hstep
            · cases hstep
            · obtain rfl := Option.some.inj hstep
              exact h.set hth rfl rfl rfl rfl rfl
            · obtain rfl := Option.some.inj hstep
              exact ⟨h.tables, h.joining⟩
    | cancelled tid =>
        simp only [actOnCancel] at hstep
        split at hstep
        · cases hstep
        · rename_i th hth
          split at hstep
          · obtain rfl := Option.some.inj hstep
            exact h.set hth rfl rfl rfl rfl rfl
          · cases hstep
    | joined =>
        obtain ⟨-, -, -, -, -, rfl⟩ := pthreadJoined_eq_some hstep
        exact ⟨h.tables, fun _ hnone => by cases hnone⟩
    | createProducer msg counter =>
        obtain rfl := command_eq_some hstep
        unfold createProducer
        split
        · exact h
        · refine Listed.append h rfl (fun tid htid => ?_) rfl
          simp only [List.mem_append, List.mem_singleton] at htid ⊢
          tauto
    | createConsumer msg counter =>
        obtain rfl := command_eq_some hstep
        unfold createConsumer
        split
        · exact h
        · refine Listed.append h rfl (fun tid htid => ?_) rfl
          simp only [List.mem_append, List.mem_singleton] at htid ⊢
          tauto
    | removeProducer =>
        obtain rfl := command_eq_some hstep
        unfold removeProducer
        split
        · exact h
        · rename_i tid hlast
          have hmem : tid ∈ s.producers := List.mem_of_getLast? hlast
          refine Listed.remove h (h.tables tid (List.mem_append_left _ hmem)) rfl
            (fun t ht => ?_) rfl
          rcases List.mem_append.mp ht with ht | ht
          · exact List.mem_append_left _ (List.dropLast_subset _ ht)
          · exact List.mem_append_right _ ht
    | removeConsumer =>
        obtain rfl := command_eq_some hstep
        unfold removeConsumer
        split
        · exact h
        · rename_i tid hlast
          have hmem : tid ∈ s.consumers := List.mem_of_getLast? hlast
          refine Listed.remove h (h.tables tid (List.mem_append_right _ hmem)) rfl
            (fun t ht => ?_) rfl
          rcases List.mem_append.mp ht with ht | ht
          · exact List.mem_append_left _ ht
          · exact List.mem_append_right _ (List.dropLast_subset _ ht)

theorem listed_of_reaches {memory : MsgQueue} {s : State}
    (h : Reaches step anything (init memory) s) : Listed s :=
  h.invariant (Listed.init memory) fun _ _ _ hu _ hstep => hu.step hstep

/-- The threads go on alone, cancellations are acted on, and `pthread_join` returns. -/
def Ending (s : State) (a : Action) : Prop :=
  Alone s a ∨ (∃ tid, a = .cancelled tid) ∨ a = .joined

theorem step_joined {s : State} {tid : ℕ} {th : Thread} (hfault : s.fault = none)
    (hjoining : s.joining = some tid) (hth : s.threads[tid]? = some th)
    (hterm : th.terminated = true) : step s .joined = some { s with joining := none } := by
  have hfault' : ¬ s.fault.isSome = true := by simp [hfault]
  simp only [step, if_neg hfault', pthreadJoined, hjoining, hth, if_pos hterm]

theorem step_cancelled {s : State} {tid : ℕ} {th : Thread} (hfault : s.fault = none)
    (hth : s.threads[tid]? = some th) (hcancel : th.cancel = true) (hlive : th.terminated = false)
    (hpoint : cancellationPoint th.worker.pc = true) :
    step s (.cancelled tid) =
      some { s with threads := s.threads.set tid { th with terminated := true } } := by
  have hfault' : ¬ s.fault.isSome = true := by simp [hfault]
  have hacts : (th.cancel && !th.terminated && cancellationPoint th.worker.pc) = true := by
    rw [hcancel, hlive, hpoint]
    rfl
  simp only [step, if_neg hfault', actOnCancel, hth, if_pos hacts]

/-- Before a `put_msg` finds the queue full, no removal hangs: wherever its thread is when it is
cancelled, the threads can go on until `pthread_join` returns, or one of them finds the queue full
first. -/
theorem removal_can_return {memory : MsgQueue} {s : State} {tid : ℕ}
    (h : Reaches step anything (init memory) s) (hfault : s.fault = none)
    (hjoining : s.joining = some tid) :
    ∃ u, Reaches step Ending s u ∧
      (u.fault = none ∧ u.joining = none ∨ u.fault = some overflow) := by
  obtain ⟨th, hth, hcancel⟩ := (listed_of_reaches h).joining tid hjoining
  have ho := owned_of_reaches h
  by_cases hterm : th.terminated = true
  · have hstep := step_joined hfault hjoining hth hterm
    exact ⟨_, .single ⟨.joined, .inr (.inr rfl), hstep⟩, .inl ⟨hfault, rfl⟩⟩
  · have hlive : th.terminated = false := by simpa using hterm
    obtain ⟨c, hrun, ⟨hok, -⟩, hpoint⟩ := reaches_point ho hth hlive
    obtain ⟨u, hu, hgone⟩ := GoneOn.reaches (admitted_mayEnd s tid) hfault hrun
    have hu' : Reaches step Ending s u := hu.mono fun _ _ ha => .inl ha
    rcases hpoint with ⟨w, hw, hpoint⟩ | ⟨t, w, hw, hover⟩
    · obtain ⟨th', th₀, hth', hth₀, rfl, hcancel', hterm'⟩ := hgone.thread hw
      obtain rfl := Option.some.inj (hth.symm.trans hth₀)
      have hlt := (List.getElem?_eq_some_iff.mp hth').1
      have hcancelled := step_cancelled hgone.fault hth' (hcancel'.trans hcancel)
        (hterm'.trans hlive) hpoint
      have hjoined := step_joined (s := { u with
          threads := u.threads.set tid { th' with terminated := true } }) hgone.fault
        (hgone.joining.trans hjoining) (List.getElem?_set_self hlt) rfl
      exact ⟨_, (hu'.tail ⟨.cancelled tid, .inr (.inl ⟨tid, rfl⟩), hcancelled⟩).tail
        ⟨.joined, .inr (.inr rfl), hjoined⟩, .inl ⟨hgone.fault, rfl⟩⟩
    · obtain ⟨halone, hstep⟩ := hgone.overflow hok (admitted_mayEnd s tid) hw hover
      exact ⟨_, hu'.tail ⟨_, .inl halone, hstep⟩, .inr rfl⟩

/-- The thread is cancelled while it waits for the mutex. -/
theorem removal_can_return_one :
    ∃ s, exec step (init zeroMemory) ([.createProducer Msg.zero 0, .createProducer Msg.zero 0] ++
        List.replicate 3 (.run 0 noRand) ++ List.replicate 2 (.run 1 noRand) ++
        [.removeProducer]) = some s ∧
      ∃ u, Reaches step Ending s u ∧
        (u.fault = none ∧ u.joining = none ∨ u.fault = some overflow) := by
  have hrun : ∃ s, exec step (init zeroMemory) ([.createProducer Msg.zero 0,
      .createProducer Msg.zero 0] ++ List.replicate 3 (.run 0 noRand) ++
        List.replicate 2 (.run 1 noRand) ++ [.removeProducer]) = some s ∧ s.fault = none ∧
      s.joining = some 1 := ⟨_, rfl, rfl, rfl⟩
  obtain ⟨s, hexec, hfault, hjoining⟩ := hrun
  exact ⟨s, hexec, removal_can_return (reaches_anything_of_exec hexec) hfault hjoining⟩

end OsaspLabs.Lab5
